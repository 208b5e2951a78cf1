import SchemaCodec.Proofs.Command.Run
import SchemaCodec.Proofs.Module.Exports

/-!
# The listing and the module agree

Both commands first read and compile their input, so they fail alike. The listing prints the names
of the declarations; the module binds them, and they can be read back from its text. What is read
back is the listing, behind whatever the preamble exports itself
(`Invocation.exportedNames_eq_listing`), for all libraries that read the input: a preamble may be
any text, and one line of it is enough to export a name that no declaration has
(`Invocation.exports_of_preamble_not_listed`).
-/

namespace SchemaCodec

open FileSystem Text

variable {readers : Readers} {input : Input} {fs : FileSystem} {settings : Settings}
  {c : Compilation}

/-- A document that compiles was read and compiled as a value. -/
theorem exists_compile_of_compileDocument {path : String}
    (h : (runOn (access.compileDocument readers settings path) fs).1 = .ok c) :
    ∃ document, compile settings document = .ok c := by
  simp only [FileAccess.compileDocument, runOn_bind] at h
  split at h
  · exact absurd h (by simp)
  · split at h
    · exact absurd h (by simp)
    · next hcompile =>
      obtain rfl := Except.ok.inj h
      exact ⟨_, hcompile⟩

/-- What an input comes to is what some document compiles to under its settings. -/
theorem exists_compile_of_compileOn (h : input.compileOn readers fs = .ok (settings, c)) :
    ∃ document, compile settings document = .ok c := by
  simp only [Input.compileOn, Input.compile, runOn_bind] at h
  split at h
  · exact absurd h (by simp)
  · rw [runOn_bind] at h
    split at h
    · exact absurd h (by simp)
    · next hdocument =>
      obtain ⟨rfl, rfl⟩ := Prod.mk.inj (Except.ok.inj h)
      exact exists_compile_of_compileDocument hdocument

namespace Invocation

/-- The command line that prints the module of an input. -/
def emitting (verbose : Bool) (input : Input) : Invocation :=
  ⟨verbose, .generate input none false⟩

/-- The command line that lists the declarations of an input. -/
def listing (verbose : Bool) (input : Input) : Invocation :=
  ⟨verbose, .declarations input⟩

/-- The listing has one line for each name, since no name holds a break. -/
theorem lines_names (hc : input.compileOn readers fs = .ok (settings, c)) :
    lines (String.join (c.names.map (· ++ "\n"))) = c.names := by
  obtain ⟨document, hcompile⟩ := exists_compile_of_compileOn hc
  exact lines_join fun name hname ↦
    (unbroken_of_isDeclarationName (isDeclarationName_of_compile hcompile hname)).newline_not_mem

/-- **The listing agrees with the module.** Both commands fail alike, with the same chain of texts
down to the error of a library. If they succeed, what the lines of the module export, as constants
and again as types, is what the preamble exports by itself, followed by the lines of the listing. -/
theorem exportedNames_eq_listing (readers : Readers) (verbose verbose' : Bool) (input : Input)
    (fs : FileSystem) :
    ((listing verbose' input).runOn readers fs).1.failure =
        ((emitting verbose input).runOn readers fs).1.failure ∧
      (((emitting verbose input).runOn readers fs).1.failure = none →
        ∃ settings c, input.compileOn readers fs = .ok (settings, c) ∧
          ∀ keyword ∈ ["const", "type"],
            exportedNames keyword ((emitting verbose input).runOn readers fs).1.stdout =
              exportedNames keyword (settings.preamble ++ "\n") ++
                lines ((listing verbose' input).runOn readers fs).1.stdout) := by
  rcases hc : input.compileOn readers fs with failure | ⟨settings, c⟩
  · rw [emitting, listing, runOn_generate_of_error verbose none hc,
      runOn_declarations_of_error verbose' hc]
    exact ⟨rfl, fun h ↦ absurd h (Option.some_ne_none failure)⟩
  · obtain ⟨document, hcompile⟩ := exists_compile_of_compileOn hc
    rw [emitting, listing, runOn_generate_of_ok verbose hc, runOn_declarations_of_ok verbose' hc]
    refine ⟨rfl, fun _ ↦ ⟨settings, c, rfl, fun keyword hkeyword ↦ ?_⟩⟩
    rw [lines_names hc]
    exact exportedNames_text_toModule hcompile settings.preamble keyword hkeyword

/-! ### A preamble that exports a name -/

/-- A preamble of one line that exports a constant. -/
def exportingPreamble : String :=
  "export const x = 1;"

/-- A preamble may export a constant that nothing declares. -/
theorem exportedNames_exportingPreamble :
    exportedNames "const" (exportingPreamble ++ "\n") = ["x"] := by
  decide

theorem lines_listing_sampleFiles (preamble : String) :
    lines ((listing false sampleInput).runOn .builtIn (sampleFiles preamble)).1.stdout =
      ["JSONSchemaObject"] := by
  have hc := compileOn_sampleFiles preamble
  rw [listing, runOn_declarations_of_ok false hc, lines_names hc]
  rfl

/-- Here the module exports one constant more than the listing has lines. -/
theorem exportedNames_sampleFiles :
    ((emitting false sampleInput).runOn .builtIn (sampleFiles exportingPreamble)).1.failure = none ∧
      exportedNames "const"
          ((emitting false sampleInput).runOn .builtIn (sampleFiles exportingPreamble)).1.stdout =
        ["x", "JSONSchemaObject"] := by
  have hc := compileOn_sampleFiles exportingPreamble
  have hfailure :
      ((emitting false sampleInput).runOn .builtIn (sampleFiles exportingPreamble)).1.failure =
        none := by
    rw [emitting, runOn_generate_of_ok false hc]
  obtain ⟨-, hnames⟩ :=
    exportedNames_eq_listing .builtIn false false sampleInput (sampleFiles exportingPreamble)
  obtain ⟨settings, c, hc', hexported⟩ := hnames hfailure
  obtain ⟨rfl, rfl⟩ := Prod.mk.inj (Except.ok.inj (hc'.symm.trans hc))
  refine ⟨hfailure, ?_⟩
  rw [hexported "const" List.mem_cons_self, lines_listing_sampleFiles]
  show exportedNames "const" (exportingPreamble ++ "\n") ++ _ = _
  rw [exportedNames_exportingPreamble]
  rfl

/-- **The listing can miss an export**, even if the preamble is a single line. -/
theorem exports_of_preamble_not_listed :
    ¬∀ (readers : Readers) (input : Input) (fs : FileSystem) (settings : Settings)
      (c : Compilation),
      input.compileOn readers fs = .ok (settings, c) → '\n' ∉ settings.preamble.toList →
        exportedNames "const" ((emitting false input).runOn readers fs).1.stdout =
          lines ((listing false input).runOn readers fs).1.stdout := by
  intro h
  have hc := compileOn_sampleFiles exportingPreamble
  obtain ⟨document, hcompile⟩ := exists_compile_of_compileOn hc
  have heq := h .builtIn sampleInput (sampleFiles exportingPreamble) _ _ hc (by decide)
  rw [lines_listing_sampleFiles, emitting, runOn_generate_of_ok false hc] at heq
  have hexported :=
    exportedNames_text_toModule hcompile exportingPreamble "const" List.mem_cons_self
  rw [exportedNames_exportingPreamble] at hexported
  exact absurd (hexported.symm.trans heq) (by decide)

end Invocation

end SchemaCodec
