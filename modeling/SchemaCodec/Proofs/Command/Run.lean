import SchemaCodec.Command.Run
import SchemaCodec.Files.BuiltIn
import SchemaCodec.Proofs.Compilation.Outcome
import SchemaCodec.Proofs.Files.Operations
import SchemaCodec.Proofs.Json.Spelling

/-!
# What a run leaves behind

Reading and compiling leaves the files alone (`readOnly_compile`), so a run has an effect on them
only where it writes its text. Writing either fails without a trace or puts the whole text in place
(`writeOutcome_writeText`). A run is therefore all or nothing: if it fails, every file is what it
was and nothing was printed, and if it succeeds, at most the file that it was asked to write has
changed (`Invocation.run_all_or_nothing`). This does not depend on how the libraries read a text.
-/

namespace SchemaCodec

/-! ### Runs on files in memory -/

namespace FileSystem

/-- The result of a program, and the files that it leaves behind. -/
def runOn {α : Type} (program : StateM FileSystem α) (fs : FileSystem) : α × FileSystem :=
  (program.run fs).run

/-- Programs that leave all files as they are. -/
def ReadOnly {α : Type} (program : StateM FileSystem α) : Prop :=
  ∀ fs, (runOn program fs).2 = fs

variable {α β : Type} (readers : Readers)

@[simp] theorem runOn_pure (a : α) (fs : FileSystem) :
    runOn (pure a : StateM FileSystem α) fs = (a, fs) := rfl

@[simp] theorem runOn_bind (program : StateM FileSystem α) (next : α → StateM FileSystem β)
    (fs : FileSystem) :
    runOn (program >>= next) fs =
      runOn (next (runOn program fs).1) (runOn program fs).2 := rfl

@[simp] theorem runOn_read (path : String) (fs : FileSystem) :
    runOn (access.read path) fs = (fs.read path, fs) := rfl

theorem readOnly_pure (a : α) : ReadOnly (pure a : StateM FileSystem α) :=
  fun _ ↦ rfl

/-- A program is read-only if its first part and all that may follow are. -/
theorem ReadOnly.bind {program : StateM FileSystem α} {next : α → StateM FileSystem β}
    (h : ReadOnly program) (hnext : ∀ a, ReadOnly (next a)) : ReadOnly (program >>= next) :=
  fun fs ↦ (hnext _ _).trans (h fs)

theorem readOnly_read (path : String) : ReadOnly (access.read path) :=
  fun _ ↦ rfl

theorem readOnly_loadSettings? (path : Option String) :
    ReadOnly (access.loadSettings? readers path) := by
  cases path with
  | none => exact readOnly_pure _
  | some path =>
    refine (readOnly_read path).bind fun result ↦ ?_
    split
    · exact readOnly_pure _
    · split <;> exact readOnly_pure _

theorem readOnly_compileDocument (settings : Settings) (path : String) :
    ReadOnly (access.compileDocument readers settings path) := by
  refine ((readOnly_read path).bind fun result ↦ ?_).bind fun result ↦ ?_
  · split
    · exact readOnly_pure _
    · split <;> exact readOnly_pure _
  · split
    · exact readOnly_pure _
    · split <;> exact readOnly_pure _

/-- **Reading and compiling leaves the files alone.** -/
theorem readOnly_compile (input : Input) : ReadOnly (input.compile readers access) := by
  refine (readOnly_loadSettings? readers input.settings).bind fun result ↦ ?_
  split
  · exact readOnly_pure _
  · refine (readOnly_compileDocument readers _ input.document).bind fun result ↦ ?_
    split <;> exact readOnly_pure _

/-! ### Writing a text -/

/-- The program that replaces the files by what an operation makes of them, unless it fails. -/
def update (operation : FileSystem → Except FileFault FileSystem) :
    StateM FileSystem (Except FileFault Unit) := do
  match operation (← StateT.get) with
  | .ok fs => StateT.set fs; return .ok ()
  | .error e => return .error e

/-- After an operation that succeeds, a program goes on with the changed files. -/
theorem runOn_update_bind_of_ok (operation : FileSystem → Except FileFault FileSystem)
    {fs fs' : FileSystem} (h : operation fs = .ok fs')
    (next : Except FileFault Unit → StateM FileSystem α) :
    runOn (update operation >>= next) fs = runOn (next (.ok ())) fs' := by
  show runOn ((match operation fs with | .ok fs => _ | .error e => _) >>= next) fs = _
  rw [h]
  rfl

/-- After an operation that fails, a program goes on with the files as they were. -/
theorem runOn_update_bind_of_error (operation : FileSystem → Except FileFault FileSystem)
    {fs : FileSystem} {fault : FileFault} (h : operation fs = .error fault)
    (next : Except FileFault Unit → StateM FileSystem α) :
    runOn (update operation >>= next) fs = runOn (next (.error fault)) fs := by
  show runOn ((match operation fs with | .ok fs => _ | .error e => _) >>= next) fs = _
  rw [h]
  rfl

/-- What happened before a text was written does not show if it touched no file. -/
theorem Wrote.of_sameFiles {first second third : FileSystem} {path text : String}
    (h : Wrote second third path text) (hsame : SameFiles first second) :
    Wrote first third path text := by
  obtain ⟨hworking, hread, names, hleads, hcontent, hothers⟩ := h
  exact ⟨hworking.trans hsame.workingDirectory_eq, hread, names, hleads, hcontent,
    fun other hother ↦ (hothers other hother).trans (hsame.content?_eq other)⟩

/-- The last part of writing a text, when its directory is there. -/
def writeFile (path text : String) : StateM FileSystem (Except Failure Unit) := do
  match ← access.write path text with
  | .error fault => return .error (.notWritten path fault)
  | .ok () => return .ok ()

/-- What writing a text comes to. -/
inductive WriteOutcome (path text : String) (before : FileSystem) :
    Except Failure Unit × FileSystem → Prop
  | failed {failure : Failure} {after : FileSystem} (h : SameFiles before after) :
      WriteOutcome path text before (.error failure, after)
  | written {after : FileSystem} (h : Wrote before after path text) :
      WriteOutcome path text before (.ok (), after)

/-- Writing a file writes it or changes nothing. -/
theorem writeOutcome_writeFile {path text : String} {before middle : FileSystem}
    (hsame : SameFiles before middle) :
    WriteOutcome path text before (runOn (writeFile path text) middle) := by
  show WriteOutcome path text before (runOn (update (·.write path text) >>= _) middle)
  rcases h : middle.write path text with fault | after
  · rw [runOn_update_bind_of_error (·.write path text) h]
    exact .failed hsame
  · rw [runOn_update_bind_of_ok (·.write path text) h]
    exact .written ((wrote_of_write h).of_sameFiles hsame)

/-- **A text is written, or no file changes.** -/
theorem writeOutcome_writeText (path text : String) (before : FileSystem) :
    WriteOutcome path text before (runOn (access.writeText path text) before) := by
  rw [FileAccess.writeText]
  split
  · exact writeOutcome_writeFile (.refl before)
  · show WriteOutcome path text before (runOn (update (·.createDirectory _) >>= _) before)
    rcases h : before.createDirectory ((Path.parent? path).getD "") with fault | middle
    · rw [runOn_update_bind_of_error (·.createDirectory _) h]
      exact .failed (.refl before)
    · rw [runOn_update_bind_of_ok (·.createDirectory _) h]
      exact writeOutcome_writeFile (sameFiles_createDirectory h)

end FileSystem

open FileSystem

/-- What reading and compiling an input comes to. -/
def Input.compileOn (readers : Readers) (input : Input) (fs : FileSystem) :
    Except Failure (Settings × Compilation) :=
  (runOn (input.compile readers access) fs).1

/-- Compiling an input leaves the files alone. -/
theorem runOn_compile (readers : Readers) (input : Input) (fs : FileSystem) :
    runOn (input.compile readers access) fs = (input.compileOn readers fs, fs) :=
  Prod.ext rfl (readOnly_compile readers input fs)

namespace Invocation

/-- What a command line comes to, and the files that it leaves behind. -/
def runOn (readers : Readers) (i : Invocation) (fs : FileSystem) : Outcome × FileSystem :=
  FileSystem.runOn (i.run readers access) fs

variable (verbose : Bool) {readers : Readers} {input : Input} {fs : FileSystem}
  {settings : Settings} {c : Compilation} {failure : Failure}

/-- Where the input does not compile, generating reports that and nothing else. -/
theorem runOn_generate_of_error (out : Option String)
    (h : input.compileOn readers fs = .error failure) :
    (⟨verbose, .generate input out false⟩ : Invocation).runOn readers fs =
      ({ failure := some failure }, fs) := by
  rw [runOn, Invocation.run]
  simp only [Bool.false_eq_true, if_false, runOn_bind, runOn_compile, h, runOn_pure]

/-- Where the input does not compile, listing reports that and nothing else. -/
theorem runOn_declarations_of_error (h : input.compileOn readers fs = .error failure) :
    (⟨verbose, .declarations input⟩ : Invocation).runOn readers fs =
      ({ failure := some failure }, fs) := by
  rw [runOn, Invocation.run]
  simp only [runOn_bind, runOn_compile, h, runOn_pure]

/-- Without an output path the module is printed. -/
theorem runOn_generate_of_ok (h : input.compileOn readers fs = .ok (settings, c)) :
    (⟨verbose, .generate input none false⟩ : Invocation).runOn readers fs =
      ({ stdout := (c.toModule settings.preamble).text }, fs) := by
  rw [runOn, Invocation.run]
  simp only [Bool.false_eq_true, if_false, runOn_bind, runOn_compile, h, runOn_pure]

/-- The listing prints the names, each on its line. -/
theorem runOn_declarations_of_ok (h : input.compileOn readers fs = .ok (settings, c)) :
    (⟨verbose, .declarations input⟩ : Invocation).runOn readers fs =
      ({ stdout := String.join (c.names.map (· ++ "\n")) }, fs) := by
  rw [runOn, Invocation.run]
  simp only [runOn_bind, runOn_compile, h, runOn_pure]

/-- With an output path the module is written, and a failure to write is reported. -/
theorem runOn_generate_to_of_ok (path : String)
    (h : input.compileOn readers fs = .ok (settings, c)) :
    (⟨verbose, .generate input (some path) false⟩ : Invocation).runOn readers fs =
      match FileSystem.runOn (access.writeText path (c.toModule settings.preamble).text) fs with
      | (.error failure, after) => ({ failure := some failure }, after)
      | (.ok (), after) => ({}, after) := by
  rw [runOn, Invocation.run]
  simp only [Bool.false_eq_true, if_false, runOn_bind, runOn_compile, h]
  rcases FileSystem.runOn (access.writeText path (c.toModule settings.preamble).text) fs with
    ⟨failure | -, after⟩ <;> rfl

/-- A dry run describes what it was asked, whatever the files are: it does not open any. -/
theorem run_dryRun {m : Type → Type} [Monad m] (readers : Readers) (files : FileAccess m)
    (input : Input) (out : Option String) :
    (⟨verbose, .generate input out true⟩ : Invocation).run readers files =
      pure { shown := (⟨verbose, .generate input out true⟩ : Invocation).describe } := rfl

/-- What a run that writes its module to a path comes to. -/
theorem runOn_generate_to_cases (path : String)
    (h : input.compileOn readers fs = .ok (settings, c)) :
    (∃ failure after, SameFiles fs after ∧
      (⟨verbose, .generate input (some path) false⟩ : Invocation).runOn readers fs =
        ({ failure := some failure }, after)) ∨
    (∃ after, Wrote fs after path (c.toModule settings.preamble).text ∧
      (⟨verbose, .generate input (some path) false⟩ : Invocation).runOn readers fs =
        ({}, after)) := by
  rw [runOn_generate_to_of_ok verbose path h]
  have houtcome := writeOutcome_writeText path (c.toModule settings.preamble).text fs
  generalize FileSystem.runOn (access.writeText path _) fs = result at houtcome ⊢
  cases houtcome with
  | failed hsame => exact .inl ⟨_, _, hsame, rfl⟩
  | written hwrote => exact .inr ⟨_, hwrote, rfl⟩

/-- A run that fails prints nothing and changes no file. -/
theorem sameFiles_of_failure {i : Invocation} (h : (i.runOn readers fs).1.failure ≠ none) :
    SameFiles fs (i.runOn readers fs).2 ∧ (i.runOn readers fs).1.stdout = "" := by
  obtain ⟨verbose, ⟨input, out, dryRun⟩ | input⟩ := i
  · cases dryRun with
    | true => exact absurd rfl h
    | false =>
      rcases hc : input.compileOn readers fs with failure | ⟨settings, c⟩
      · rw [runOn_generate_of_error verbose out hc]
        exact ⟨.refl fs, rfl⟩
      · cases out with
        | none =>
          rw [runOn_generate_of_ok verbose hc] at h
          exact absurd rfl h
        | some path =>
          rcases runOn_generate_to_cases verbose path hc with
            ⟨failure, after, hsame, hrun⟩ | ⟨after, -, hrun⟩
          · rw [hrun]
            exact ⟨hsame, rfl⟩
          · rw [hrun] at h
            exact absurd rfl h
  · rcases hc : input.compileOn readers fs with failure | ⟨settings, c⟩
    · rw [runOn_declarations_of_error verbose hc]
      exact ⟨.refl fs, rfl⟩
    · rw [runOn_declarations_of_ok verbose hc] at h
      exact absurd rfl h

/-- A run that has written its module has written the whole module and nothing else. -/
theorem wrote_of_generate_to {path : String}
    (h : ((⟨verbose, .generate input (some path) false⟩ : Invocation).runOn readers
      fs).1.failure = none) :
    ∃ settings c after, input.compileOn readers fs = .ok (settings, c) ∧
      Wrote fs after path (c.toModule settings.preamble).text ∧
      (⟨verbose, .generate input (some path) false⟩ : Invocation).runOn readers fs =
        ({}, after) := by
  rcases hc : input.compileOn readers fs with failure | ⟨settings, c⟩
  · rw [runOn_generate_of_error verbose _ hc] at h
    exact absurd h (by simp)
  · rcases runOn_generate_to_cases verbose path hc with
      ⟨failure, after, -, hrun⟩ | ⟨after, hwrote, hrun⟩
    · rw [hrun] at h
      exact absurd h (by simp)
    · exact ⟨settings, c, after, rfl, hwrote, hrun⟩

/-- A run that only prints leaves the files as they are. -/
theorem runOn_snd_of_prints {i : Invocation}
    (h : i.command = .generate input none false ∨ i.command = .declarations input) :
    (i.runOn readers fs).2 = fs := by
  obtain ⟨verbose, command⟩ := i
  rcases h with rfl | rfl <;> rcases hc : input.compileOn readers fs with failure | ⟨settings, c⟩
  · rw [runOn_generate_of_error verbose none hc]
  · rw [runOn_generate_of_ok verbose hc]
  · rw [runOn_declarations_of_error verbose hc]
  · rw [runOn_declarations_of_ok verbose hc]

/-- **A run is all or nothing**, whatever the libraries make of a text. If it fails, every file has
the content it had, no file is new, and nothing was printed. If it succeeds in writing its module to
a path, that file holds the text of the module, no other file has changed or come up, and nothing
was printed. Success without a path to write to leaves all files and directories as they are. A dry
run uses no operation on files, whatever they are, and succeeds. -/
theorem run_all_or_nothing (readers : Readers) (i : Invocation) (before : FileSystem) :
    ((i.runOn readers before).1.failure ≠ none →
      SameFiles before (i.runOn readers before).2 ∧ (i.runOn readers before).1.stdout = "") ∧
    (∀ input path, i.command = .generate input (some path) false →
      (i.runOn readers before).1.failure = none →
      (i.runOn readers before).1.stdout = "" ∧
      ∃ settings c, input.compileOn readers before = .ok (settings, c) ∧
        Wrote before (i.runOn readers before).2 path (c.toModule settings.preamble).text) ∧
    (∀ input, i.command = .generate input none false ∨ i.command = .declarations input →
      (i.runOn readers before).1.failure = none → (i.runOn readers before).2 = before) ∧
    (∀ input out, i.command = .generate input out true →
      ∀ (m : Type → Type) [Monad m] (files : FileAccess m),
        i.run readers files = pure { failure := none, stdout := "", shown := i.describe }) := by
  refine ⟨sameFiles_of_failure, ?_, fun input h _ ↦ runOn_snd_of_prints h, ?_⟩
  · obtain ⟨verbose, command⟩ := i
    rintro input path rfl hfailure
    obtain ⟨settings, c, after, hc, hwrote, hrun⟩ := wrote_of_generate_to verbose hfailure
    rw [hrun]
    exact ⟨rfl, settings, c, hc, hwrote⟩
  · obtain ⟨verbose, command⟩ := i
    rintro input out rfl m _ files
    exact run_dryRun verbose readers files input out

/-! ### A sample directory -/

/-- Settings that give a preamble only, as they are written. -/
def preambleSettings (preamble : String) : String :=
  "\x7b" ++ Json.quote "preamble" ++ ":" ++ Json.quote preamble ++ "\x7d"

/-- A directory with an empty document, and settings that give a preamble. -/
def sampleDirectory (preamble : String) : FileTree :=
  .directory [("d.json", .file "\x7b\x7d".toUTF8),
    ("c.json", .file (preambleSettings preamble).toUTF8)]

/-- The sample directory as the one to work in. -/
def sampleFiles (preamble : String) : FileSystem :=
  ⟨.directory [("work", sampleDirectory preamble)], ["work"]⟩

/-- The document and the settings of the sample directory. -/
def sampleInput : Input :=
  ⟨"d.json", none, some "c.json"⟩

/-- What the sample directory compiles to. -/
def sampleCompilation : Compilation :=
  ⟨[⟨"JSONSchemaObject", .string⟩]⟩

/-- Settings that only have a preamble are read as such. -/
theorem ofJson_preambleSettings (preamble : String) :
    Settings.ofJson (preambleSettings preamble) = .ok { preamble := preamble } := by
  have htext : (preambleSettings preamble).toList = '\x7b' :: ((Json.quote "preamble").toList ++
      ':' :: ((Json.quote preamble).toList ++ ['\x7d'])) := by
    simp [preambleSettings]
  have hscan : Json.Token.scan (preambleSettings preamble).toList =
      ⟨[.openObject, .scalar (.string "preamble"), .colon, .scalar (.string preamble),
        .closeObject], true⟩ := by
    rw [htext, Json.Token.scan_cons rfl rfl, Json.Token.scan_quote, Json.Token.scan_cons rfl rfl,
      Json.Token.scan_quote, Json.Token.scan_cons rfl rfl, Json.Token.scan]
    rfl
  rw [Settings.ofJson, Json.events, hscan]
  rfl

theorem parse?_emptyObject : Json.parse? "\x7b\x7d" = some (.object []) := by
  have hscan : Json.Token.scan "\x7b\x7d".toList = ⟨[.openObject, .closeObject], true⟩ := by
    show Json.Token.scan ['\x7b', '\x7d'] = _
    rw [Json.Token.scan_cons rfl rfl, Json.Token.scan_cons rfl rfl, Json.Token.scan]
    rfl
  rw [Json.parse?, Json.events, hscan]
  rfl

theorem document_emptyObject : Readers.builtIn.document .json "\x7b\x7d" = .ok (.object []) :=
  congrArg Readers.found parse?_emptyObject

/-- What an input comes to, step by step. -/
theorem compileOn_of_read {document path text settingsText : String} {schema : Json}
    (hsettings : fs.read path = .ok settingsText)
    (hdecoded : readers.settings (.ofPath path) settingsText = .ok settings)
    (htext : fs.read document = .ok text)
    (hparsed : readers.document (.ofPath document) text = .ok schema)
    (hc : compile settings schema = .ok c) :
    (⟨document, none, some path⟩ : Input).compileOn readers fs = .ok (settings, c) := by
  simp only [Input.compileOn, Input.compile, FileAccess.loadSettings?, FileAccess.loadSettings,
    FileAccess.compileDocument, FileAccess.readDocument, Settings.ofText, runOn_bind, runOn_read,
    runOn_pure, hsettings, hdecoded, Except.mapError, htext, hparsed, hc, Option.getD_none]

/-- The sample input compiles to one declaration, with any preamble. -/
theorem compileOn_sampleFiles (preamble : String) :
    sampleInput.compileOn .builtIn (sampleFiles preamble) =
      .ok ({ preamble := preamble }, sampleCompilation) := by
  have hname : Identifier.isDeclarationName "JSONSchemaObject" = true := by decide
  have hsettings : (sampleFiles preamble).read "c.json" = .ok (preambleSettings preamble) :=
    read_of_locate rfl rfl
  have hdocument : (sampleFiles preamble).read "d.json" = .ok "\x7b\x7d" := read_of_locate rfl rfl
  exact compileOn_of_read hsettings (ofJson_preambleSettings preamble) hdocument
    document_emptyObject (compile_emptyObject hname)

/-- The command that writes the module of the sample to a path. -/
def generateTo (path : String) : Invocation :=
  ⟨false, .generate sampleInput (some path) false⟩

/-- Paths to which the module can be written: below the working directory, above it, and from the
root. -/
def writablePaths : List String :=
  ["gen/t.ts", "../t.ts", "/out/t.ts"]

/-- The sample module can be written to each of the paths, but not below a file. -/
theorem failure_generateTo (preamble : String) :
    (∀ path ∈ writablePaths,
      ((generateTo path).runOn .builtIn (sampleFiles preamble)).1.failure = none) ∧
    ((generateTo "d.json/t.ts").runOn .builtIn (sampleFiles preamble)).1.failure =
      some (.directoryNotCreated "d.json" .alreadyExists) := by
  have hc := compileOn_sampleFiles preamble
  constructor
  · simp only [writablePaths, List.forall_mem_cons, List.not_mem_nil, false_imp_iff, implies_true,
      and_true]
    refine ⟨?_, ?_, ?_⟩ <;>
    · rw [generateTo, runOn_generate_to_of_ok false _ hc]
      rfl
  · rw [generateTo, runOn_generate_to_of_ok false "d.json/t.ts" hc]
    rfl

/-- The module is written into directories that were not there, next to the working directory and
from the root, and below a file it cannot be written. -/
theorem run_generateTo :
    (∀ path ∈ writablePaths,
      Wrote (sampleFiles "") ((generateTo path).runOn .builtIn (sampleFiles "")).2 path
        (sampleCompilation.toModule "").text) ∧
      ((generateTo "d.json/t.ts").runOn .builtIn (sampleFiles "")).1.failure ≠ none ∧
      SameFiles (sampleFiles "")
        ((generateTo "d.json/t.ts").runOn .builtIn (sampleFiles "")).2 := by
  obtain ⟨hnone, hsome⟩ := failure_generateTo ""
  have hfails : ((generateTo "d.json/t.ts").runOn .builtIn (sampleFiles "")).1.failure ≠ none := by
    rw [hsome]
    exact Option.some_ne_none _
  refine ⟨fun path hpath ↦ ?_, hfails, ((run_all_or_nothing _ _ _).1 hfails).1⟩
  obtain ⟨-, hwritten, -, -⟩ := run_all_or_nothing .builtIn (generateTo path) (sampleFiles "")
  obtain ⟨-, settings, c, hc, hwrote⟩ := hwritten sampleInput path rfl (hnone path hpath)
  obtain ⟨rfl, rfl⟩ := Prod.mk.inj (Except.ok.inj (hc.symm.trans (compileOn_sampleFiles "")))
  exact hwrote

end Invocation

end SchemaCodec
