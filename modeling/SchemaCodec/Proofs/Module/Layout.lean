import SchemaCodec.Proofs.Compilation.Outcome
import SchemaCodec.Proofs.Text.Unbroken
import SchemaCodec.Proofs.TypeExpr.Readability

/-!
# The layout of the emitted module

Behind its preamble a module is a sequence of lines, one constant and one alias for each
declaration, and a line is never broken: the strings of a document reach a line only inside a codec
or an alias (`unbroken_codec`, `unbroken_alias`), whose texts are well-formed phrases once every
name that they mention is the name of a declaration. In a compilation every name is
(`mem_names_of_named`), so the lines of a module can be told apart by their line feeds
(`text_toModule_eq_preamble_append_lines`).
-/

namespace SchemaCodec

open Text Declaration

/-! ### The text of a module by lines -/

/-- Breaks between lines and a break at the end are a break behind every line. -/
theorem intercalate_newline_append (line : String) (lines : List String) :
    "\n".intercalate (line :: lines) ++ "\n" =
      line ++ "\n" ++ String.join (lines.map (· ++ "\n")) := by
  induction lines generalizing line with
  | nil => simp
  | cons next lines ih =>
    rw [String.intercalate_cons_cons, String.append_assoc, ih]
    simp [String.append_assoc]

namespace Binding

/-- The line of the constant. -/
def constantExport (b : Binding) : String :=
  "export " ++ b.constant

/-- The line of the alias. -/
def aliasExport (b : Binding) : String :=
  "export " ++ b.aliasLine

/-- The name of a constant ends where no identifier goes on. -/
theorem exists_constantExport_eq (b : Binding) :
    ∃ mark rest, b.constantExport = "export const " ++ b.name ++ String.ofList (mark :: rest) ∧
      Identifier.isPart mark = false := by
  rw [constantExport, constant]
  split
  · refine ⟨':', (" t.Type<" ++ b.name ++ "> = t.recursion(" ++ Json.quote b.name ++ ", () => " ++
      b.codec.text ++ ");").toList, ?_, by decide⟩
    rw [← String.toList_inj]
    simp
  · refine ⟨' ', ("= " ++ b.codec.text ++ ";").toList, ?_, by decide⟩
    rw [← String.toList_inj]
    simp

/-- The export of an alias starts with its keyword and its name. -/
theorem exists_aliasExport_eq (b : Binding) :
    ∃ rest, b.aliasExport = "export type " ++ b.name ++ " = " ++ rest := by
  refine ⟨b.type.text ++ ";", ?_⟩
  rw [aliasExport, aliasLine, ← String.toList_inj]
  simp

end Binding

/-- A module is its preamble and then one line for each export. -/
theorem Module.text_eq (preamble : String) (bindings : List Binding) :
    (Module.mk (some preamble) bindings).text =
      preamble ++ "\n" ++ String.join
        ((bindings.map Binding.constantExport ++ bindings.map Binding.aliasExport).map
          (· ++ "\n")) :=
  intercalate_newline_append preamble _

/-! ### Lines without breaks -/

section Unbroken

variable {t : TypeExpr} {b : Binding}

/-- The codec of a type with proper names is on one line. -/
theorem unbroken_codec (h : ∀ name ∈ t.names, Identifier.isDeclarationName name = true) :
    Unbroken (CodecExpr.ofType t).text.toList := by
  rw [CodecExpr.toList_text]
  exact (CodecExpr.wellNamed_ofType h).wellFormed_phrase.unbroken_chars (by decide)

/-- The alias of a type with proper names is on one line. -/
theorem unbroken_alias (h : ∀ name ∈ t.names, Identifier.isDeclarationName name = true) :
    Unbroken t.text.toList := by
  rw [TypeExpr.toList_text]
  exact (TypeExpr.wellFormed_phrase h).unbroken_chars (by decide)

theorem unbroken_of_isDeclarationName {name : String}
    (h : Identifier.isDeclarationName name = true) : Unbroken name.toList := by
  rw [Identifier.isDeclarationName, Bool.and_eq_true] at h
  exact unbroken_of_isIdentifier h.1

theorem unbroken_constantExport (hname : Identifier.isDeclarationName b.name = true)
    (htype : ∀ name ∈ b.type.names, Identifier.isDeclarationName name = true) :
    Unbroken b.constantExport.toList := by
  rw [Binding.constantExport, Binding.constant]
  split
  · simp only [String.toList_append, unbroken_append_iff, unbroken_of_isDeclarationName hname,
      unbroken_quote, Binding.codec, unbroken_codec htype]
    decide
  · simp only [String.toList_append, unbroken_append_iff, unbroken_of_isDeclarationName hname,
      Binding.codec, unbroken_codec htype]
    decide

theorem unbroken_aliasExport (hname : Identifier.isDeclarationName b.name = true)
    (htype : ∀ name ∈ b.type.names, Identifier.isDeclarationName name = true) :
    Unbroken b.aliasExport.toList := by
  simp only [Binding.aliasExport, Binding.aliasLine, String.toList_append, unbroken_append_iff,
    unbroken_of_isDeclarationName hname, unbroken_alias htype]
  decide

end Unbroken

/-! ### Compilations -/

variable {settings : Settings} {document : Json} {c : Compilation}

/-- Each binding comes from a declaration. -/
theorem exists_declaration_of_mem_bindings {b : Binding} (hb : b ∈ c.bindings) :
    ∃ d ∈ c.declarations, b.name = d.name ∧ b.type = d.type := by
  obtain ⟨i, hi, rfl⟩ := List.mem_mapIdx.1 hb
  exact ⟨_, List.getElem_mem hi, rfl, rfl⟩

/-- Compiled exports are on one line each. -/
theorem newline_not_mem_exports (hc : compile settings document = .ok c) {b : Binding}
    (hb : b ∈ c.bindings) :
    '\n' ∉ b.constantExport.toList ∧ '\n' ∉ b.aliasExport.toList := by
  obtain ⟨d, hd, hname, htype⟩ := exists_declaration_of_mem_bindings hb
  have hproper : Identifier.isDeclarationName b.name = true :=
    isDeclarationName_of_compile hc (hname ▸ List.mem_map_of_mem hd)
  have hnamed : ∀ name ∈ b.type.names, Identifier.isDeclarationName name = true :=
    fun name hmem ↦ isDeclarationName_of_compile hc (mem_names_of_named hc hd (htype ▸ hmem))
  exact ⟨(unbroken_constantExport hproper hnamed).newline_not_mem,
    (unbroken_aliasExport hproper hnamed).newline_not_mem⟩

/-- **The lines of an emitted module.** Whatever strings a document contains, its module is the
preamble, a line feed, and then one line for the constant of each declaration followed by one for
each alias, in the order of the declarations. Each line ends with its only line feed and starts with
the name that it binds, which is not the beginning of a longer one; no name is bound twice. -/
theorem text_toModule_eq_preamble_append_lines (hc : compile settings document = .ok c)
    (preamble : String) :
    c.names.Nodup ∧ ∃ constants aliases : List String,
      (c.toModule preamble).text =
          preamble ++ "\n" ++ String.join ((constants ++ aliases).map (· ++ "\n")) ∧
        constants.length = c.declarations.length ∧ aliases.length = c.declarations.length ∧
        (∀ line ∈ constants ++ aliases, '\n' ∉ line.toList) ∧
        ∀ (i : ℕ) (name : String), c.names[i]? = some name →
          (∃ mark rest,
              constants[i]? = some ("export const " ++ name ++ String.ofList (mark :: rest)) ∧
                Identifier.isPart mark = false) ∧
            ∃ rest, aliases[i]? = some ("export type " ++ name ++ " = " ++ rest) := by
  refine ⟨nodup_names_compile hc, c.bindings.map Binding.constantExport,
    c.bindings.map Binding.aliasExport, Module.text_eq preamble c.bindings, ?_, ?_, ?_, ?_⟩
  · simp [Compilation.bindings, Binding.ofDeclarations]
  · simp [Compilation.bindings, Binding.ofDeclarations]
  · intro line hline
    rw [List.mem_append, List.mem_map, List.mem_map] at hline
    rcases hline with ⟨b, hb, rfl⟩ | ⟨b, hb, rfl⟩
    · exact (newline_not_mem_exports hc hb).1
    · exact (newline_not_mem_exports hc hb).2
  · intro i name hname
    rw [← map_name_bindings, List.getElem?_map, Option.map_eq_some_iff] at hname
    obtain ⟨b, hb, rfl⟩ := hname
    simp only [List.getElem?_map, hb, Option.map_some, Option.some_inj]
    exact ⟨b.exists_constantExport_eq, b.exists_aliasExport_eq⟩

/-! ### A document with line feeds -/

/-- A payload with line feeds, a quote and a backslash. -/
def brokenPayload : Json :=
  .object [("\"\n", .string "\\\n")]

/-- A document with the payload, under a property whose name has a line feed as well. -/
def brokenDocument : Json :=
  .object [("type", .string "object"),
    ("properties", .object [("a\nb", .object [("const", brokenPayload)])]),
    ("required", .array [.string "a\nb"])]

/-- What the document compiles to. -/
def brokenCompilation : Compilation :=
  ⟨[⟨"JSONSchemaObject", .interface [⟨"a\nb", .literal brokenPayload, false⟩]⟩]⟩

theorem compile_brokenDocument : compile {} brokenDocument = .ok brokenCompilation := by
  have hleaf : TypeExpr.ofSchema (.object [("const", brokenPayload)]) = .literal brokenPayload :=
    ofSchema_eq _
  have hroot : TypeExpr.ofSchema brokenDocument =
      .interface [⟨"a\nb", .literal brokenPayload, false⟩] :=
    (ofSchema_eq _).trans (congrArg (fun t ↦ TypeExpr.interface [⟨"a\nb", t, false⟩]) hleaf)
  have hcollect : collect {} brokenDocument = .ok brokenCompilation.declarations := by
    show Except.ok [(⟨"JSONSchemaObject", .ofSchema brokenDocument⟩ : Declaration)] = _
    rw [hroot]
    rfl
  rw [compile, hcollect]
  show Except.ok (⟨sort brokenCompilation.declarations⟩ : Compilation) = _
  rw [sort_eq_self (by decide)]

/-- The strings of this document are escaped in both lines. -/
theorem text_toModule_brokenCompilation :
    compile {} brokenDocument = .ok brokenCompilation ∧
      ∃ constants aliases : List String,
        (brokenCompilation.toModule "").text =
            "" ++ "\n" ++ String.join ((constants ++ aliases).map (· ++ "\n")) ∧
          constants.length = 1 ∧ aliases.length = 1 ∧
            ∀ line ∈ constants ++ aliases, '\n' ∉ line.toList := by
  obtain ⟨-, constants, aliases, htext, hconstants, haliases, hlines, -⟩ :=
    text_toModule_eq_preamble_append_lines compile_brokenDocument ""
  exact ⟨compile_brokenDocument, constants, aliases, htext, hconstants, haliases, hlines⟩

end SchemaCodec
