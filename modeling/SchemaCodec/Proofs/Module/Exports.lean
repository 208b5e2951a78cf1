import SchemaCodec.Proofs.Module.Layout

/-!
# The names that a module exports

The exports of a text are read off its lines: a line that starts with `export`, a keyword and an
identifier binds that identifier. Nothing but the text is looked at, so a preamble may export names
of its own. Behind the preamble, the constants of an emitted module are its declarations in order,
and so are its aliases (`exportedNames_text_toModule`): the text of a codec is never broken into
lines, and neither kind of line can be taken for the other.
-/

namespace SchemaCodec

/-! ### Lines -/

namespace Text

/-- The lines of a text. Each ends in a line feed, and what stands behind the last one is no
line. -/
def lines (text : String) : List String :=
  (text.toList.splitOn '\n').dropLast.map String.ofList

/-- A text is cut at each break. -/
theorem lines_append_newline_append (first rest : String) :
    lines (first ++ "\n" ++ rest) = lines (first ++ "\n") ++ lines rest := by
  have hsplit : (first ++ "\n" ++ rest).toList = first.toList ++ '\n' :: rest.toList := by simp
  have hfirst : (first ++ "\n").toList = first.toList ++ '\n' :: [] := by simp
  rw [lines, lines, lines, hsplit, hfirst, List.splitOn_append_cons_self,
    List.splitOn_append_cons_self, List.dropLast_append_of_ne_nil (List.splitOn_ne_nil _ _),
    List.splitOn_nil, List.dropLast_concat, List.map_append]

theorem lines_append_newline {line : String} (h : '\n' ∉ line.toList) :
    lines (line ++ "\n") = [line] := by
  have hline : (line ++ "\n").toList = line.toList ++ '\n' :: [] := by simp
  rw [lines, hline, List.splitOn_append_cons_self_of_not_mem h, List.splitOn_nil]
  simp

/-- Lines that are written one after the other are read back. -/
theorem lines_join {written : List String} (h : ∀ line ∈ written, '\n' ∉ line.toList) :
    lines (String.join (written.map (· ++ "\n"))) = written := by
  induction written with
  | nil => rfl
  | cons line rest ih =>
    rw [List.forall_mem_cons] at h
    rw [List.map_cons, String.join_cons, lines_append_newline_append, lines_append_newline h.1,
      ih h.2, List.singleton_append]

end Text

open Text

/-! ### Exports -/

/-- What an export of a keyword starts with. -/
def exportLead (keyword : String) : List Char :=
  ("export " ++ keyword ++ " ").toList

/-- The name that a line binds as an export of a keyword. -/
def exportedName? (keyword line : String) : Option String :=
  if exportLead keyword <+: line.toList then
    let name := (line.toList.drop (exportLead keyword).length).takeWhile Identifier.isPart
    if Identifier.isSpelling name then some (String.ofList name) else none
  else none

/-- The names that the lines of a text bind as exports of a keyword, in order. -/
def exportedNames (keyword text : String) : List String :=
  (lines text).filterMap (exportedName? keyword)

/-- The exported name is what follows the keyword, up to a character of no name. -/
theorem exportedName?_of_lead {keyword name line : String} (mark : Char) (rest : List Char)
    (hname : Identifier.isIdentifier name = true) (hmark : Identifier.isPart mark = false)
    (hline : line.toList = exportLead keyword ++ (name.toList ++ mark :: rest)) :
    exportedName? keyword line = some name := by
  have htake : (name.toList ++ mark :: rest).takeWhile Identifier.isPart = name.toList := by
    rw [List.takeWhile_append_of_pos (isPart_of_isIdentifier hname),
      List.takeWhile_cons_of_neg (by simp [hmark]), List.append_nil]
  have hspelling : Identifier.isSpelling name.toList = true := hname
  rw [exportedName?, hline, if_pos (List.prefix_append _ _), List.drop_left]
  simp only [htake]
  rw [if_pos hspelling, String.ofList_toList]

theorem exportedName?_of_not_lead {keyword line : String}
    (h : ¬exportLead keyword <+: line.toList) : exportedName? keyword line = none :=
  if_neg h

namespace Binding

variable {b : Binding}

/-- A constant is exported under its name, and no type is. -/
theorem exportedName?_constantExport (hname : Identifier.isDeclarationName b.name = true) :
    exportedName? "const" b.constantExport = some b.name ∧
      exportedName? "type" b.constantExport = none := by
  rw [Identifier.isDeclarationName, Bool.and_eq_true] at hname
  obtain ⟨mark, rest, hline, hmark⟩ := b.exists_constantExport_eq
  constructor
  · refine exportedName?_of_lead mark rest hname.1 hmark ?_
    rw [hline]
    simp [exportLead]
  · refine exportedName?_of_not_lead ?_
    rw [hline]
    simp [exportLead]

/-- A type is exported under its name, and no constant is. -/
theorem exportedName?_aliasExport (hname : Identifier.isDeclarationName b.name = true) :
    exportedName? "const" b.aliasExport = none ∧
      exportedName? "type" b.aliasExport = some b.name := by
  rw [Identifier.isDeclarationName, Bool.and_eq_true] at hname
  obtain ⟨rest, hline⟩ := b.exists_aliasExport_eq
  constructor
  · refine exportedName?_of_not_lead ?_
    rw [hline]
    simp [exportLead]
  · refine exportedName?_of_lead ' ' ('=' :: ' ' :: rest.toList) hname.1 rfl ?_
    rw [hline]
    simp [exportLead]

end Binding

/-! ### The exports of a module -/

variable {settings : Settings} {document : Json} {c : Compilation}

/-- The lines of an emitted module, behind those of the preamble. -/
theorem lines_text_toModule (hc : compile settings document = .ok c) (preamble : String) :
    lines (c.toModule preamble).text = lines (preamble ++ "\n") ++
      (c.bindings.map Binding.constantExport ++ c.bindings.map Binding.aliasExport) := by
  have hexports : ∀ line ∈ c.bindings.map Binding.constantExport ++
      c.bindings.map Binding.aliasExport, '\n' ∉ line.toList := by
    intro line hline
    rw [List.mem_append, List.mem_map, List.mem_map] at hline
    rcases hline with ⟨b, hb, rfl⟩ | ⟨b, hb, rfl⟩
    · exact (newline_not_mem_exports hc hb).1
    · exact (newline_not_mem_exports hc hb).2
  rw [Compilation.toModule, Module.text_eq, lines_append_newline_append, lines_join hexports]

/-- Compiled bindings have proper names. -/
theorem isDeclarationName_of_mem_bindings (hc : compile settings document = .ok c) {b : Binding}
    (hb : b ∈ c.bindings) : Identifier.isDeclarationName b.name = true :=
  isDeclarationName_of_compile hc (map_name_bindings c ▸ List.mem_map_of_mem hb)

/-- Lines that all export the name of their binding export the names in order. -/
theorem filterMap_exportedName?_map {keyword : String} {bindings : List Binding}
    {line : Binding → String}
    (h : ∀ b ∈ bindings, exportedName? keyword (line b) = some b.name) :
    (bindings.map line).filterMap (exportedName? keyword) = bindings.map Binding.name := by
  rw [List.filterMap_map, ← List.filterMap_eq_map]
  exact List.filterMap_congr h

theorem filterMap_exportedName?_eq_nil {keyword : String} {bindings : List Binding}
    {line : Binding → String} (h : ∀ b ∈ bindings, exportedName? keyword (line b) = none) :
    (bindings.map line).filterMap (exportedName? keyword) = [] := by
  rw [List.filterMap_map]
  exact List.filterMap_eq_nil_iff.2 h

/-- **Behind its preamble a module exports its declarations in order**, once as constants and once
as types. -/
theorem exportedNames_text_toModule (hc : compile settings document = .ok c) (preamble : String) :
    ∀ keyword ∈ ["const", "type"], exportedNames keyword (c.toModule preamble).text =
      exportedNames keyword (preamble ++ "\n") ++ c.names := by
  have hconstant := fun b hb ↦
    Binding.exportedName?_constantExport (isDeclarationName_of_mem_bindings (b := b) hc hb)
  have halias := fun b hb ↦
    Binding.exportedName?_aliasExport (isDeclarationName_of_mem_bindings (b := b) hc hb)
  simp only [exportedNames, lines_text_toModule hc, List.filterMap_append, List.forall_mem_cons,
    ← map_name_bindings c]
  refine ⟨?_, ?_, List.forall_mem_nil _⟩
  · rw [filterMap_exportedName?_map fun b hb ↦ (hconstant b hb).1,
      filterMap_exportedName?_eq_nil fun b hb ↦ (halias b hb).1, List.append_nil]
  · rw [filterMap_exportedName?_eq_nil fun b hb ↦ (hconstant b hb).2,
      filterMap_exportedName?_map fun b hb ↦ (halias b hb).2, List.nil_append]

end SchemaCodec
