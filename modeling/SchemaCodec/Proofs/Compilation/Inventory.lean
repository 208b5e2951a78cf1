import SchemaCodec.Proofs.Compilation.Envelope

/-!
# The declarations of a document, one by one

A collection is filled in three rounds: the definitions are written down, then what is synthesized
from them, then the top level. A write under a name that is already there changes its type and not
its place. So the names of a collection are those of the definitions, behind them the synthesized
ones that are not also written, and at the end the top-level name (`names_collect`); and the type
under a name is that of its last write (`declarations_of_collect`).

Two definitions never meet in the second round. They would have to be equal up to the suffix, hence
equal, also if the suffix is empty or a definition ends in it.
-/

namespace SchemaCodec

open Declaration Document

namespace Document

/-- The names of the definitions in the order of the document. A name that were there twice would
count where it comes first. -/
def writtenNames (document : Json) : List String :=
  (definitionNames document).eraseDups

/-- The names that are synthesized from definitions, scaffolding apart, and not written as well. -/
def addedNames (settings : Settings) (document : Json) : List String :=
  (((writtenNames document).filter fun name ↦ !settings.isReserved name).map
    (· ++ settings.topLevelSuffix)).filter (· ∉ writtenNames document)

/-- Up to repetition, the synthesized names are the written names with the suffix. -/
theorem eraseDups_synthesizedNames (settings : Settings) (document : Json) :
    (synthesizedNames settings document).eraseDups =
      ((writtenNames document).filter fun name ↦ !settings.isReserved name).map
        (· ++ settings.topLevelSuffix) := by
  have hinj : Function.Injective (· ++ settings.topLevelSuffix) := by
    intro definition definition' happend
    rw [← String.toList_inj] at happend ⊢
    simpa only [String.toList_append, List.append_cancel_right_eq] using happend
  rw [synthesizedNames, eraseDups_map hinj, eraseDups_filter, writtenNames]

/-- A synthesized name that is also written stays where it is written. -/
theorem eraseDups_definitionNames_append (settings : Settings) (document : Json) :
    (definitionNames document ++ synthesizedNames settings document).eraseDups =
      writtenNames document ++ addedNames settings document := by
  rw [List.eraseDups_append, List.removeAll, eraseDups_filter, eraseDups_synthesizedNames,
    addedNames, writtenNames]
  congr 1
  refine List.filter_congr fun name _ ↦ ?_
  simp [List.mem_eraseDups]

end Document

variable {settings : Settings} {document : Json} {ds : List Declaration} {name : String}

/-- **The names of a collection in order.** -/
theorem names_collect (h : collect settings document = .ok ds) :
    ds.map Declaration.name =
      writtenNames document ++ addedNames settings document ++ [settings.toplevel] := by
  have hfree := not_toplevelTaken_of_collect h
  obtain ⟨root, written, rfl, hwritten, -, hds⟩ := collect_eq_ok h
  rw [toplevelTaken_iff hwritten] at hfree
  rw [hds, ← eraseDups_definitionNames_append]
  exact names_collected_eq_append hwritten hfree

/-- Only proper names are collected; others fail on the way. -/
theorem isDeclarationName_of_collect (h : collect settings document = .ok ds)
    (hname : name ∈ ds.map Declaration.name) : Identifier.isDeclarationName name = true := by
  have hfree := not_toplevelTaken_of_collect h
  obtain ⟨root, written, rfl, hwritten, -, -⟩ := collect_eq_ok h
  rw [collect_of_free hwritten hfree] at h
  obtain ⟨d, hd, rfl⟩ := List.mem_map.1 hname
  split at h
  · exact absurd h (by simp)
  · next hnone =>
    obtain rfl := Except.ok.inj h
    simpa using List.find?_eq_none.1 hnone d hd

/-- **What a collection holds.** If a document can be collected, its declarations have distinct
names that can all be bound. In order, these are the definitions as they are written, then for each
definition that is not scaffolding its name with the suffix, unless that is written as well, then
the top-level name. A name with the suffix stands for its definition merged with the envelope, also
in the place of a definition; every other definition stands for its own node, and the top-level name
for the document without its definitions. -/
theorem declarations_of_collect (h : collect settings document = .ok ds) :
    (ds.map Declaration.name).Nodup ∧
      (∀ name ∈ ds.map Declaration.name, Identifier.isDeclarationName name = true) ∧
      ds.map Declaration.name =
        writtenNames document ++ addedNames settings document ++ [settings.toplevel] ∧
      (∀ definition ∈ writtenNames document, settings.isReserved definition = false →
        ⟨definition ++ settings.topLevelSuffix,
          .intersection [.named definition, .named settings.envelope]⟩ ∈ ds) ∧
      (∀ name node, Defines document name node →
        (∀ definition ∈ writtenNames document, settings.isReserved definition = false →
          name ≠ definition ++ settings.topLevelSuffix) → ⟨name, .ofSchema node⟩ ∈ ds) ∧
      ⟨settings.toplevel, .ofSchema (body document)⟩ ∈ ds := by
  have hwritten (definition : String) :
      definition ∈ writtenNames document ↔ ∃ node, Defines document definition node := by
    obtain ⟨root, written, rfl, hdefinitions, -, -⟩ := collect_eq_ok h
    rw [exists_defines_iff hdefinitions, ← definitionNames_eq_keys hdefinitions]
    exact List.mem_eraseDups
  refine ⟨nodup_names_collect h, fun _ ↦ isDeclarationName_of_collect h, names_collect h, ?_, ?_,
    exists_mem_of_declares h .toplevel⟩
  · intro definition hdefinition hreserved
    have hsyn : Synthesizes settings document definition (definition ++ settings.topLevelSuffix) :=
      ⟨(hwritten definition).1 hdefinition, hreserved, rfl⟩
    exact exists_mem_of_declares h (.synthesized hsyn)
  · intro name node hdefines hother
    refine exists_mem_of_declares h (.written hdefines fun definition hsyn ↦ ?_)
    exact hother definition ((hwritten definition).2 hsyn.defined) hsyn.not_reserved hsyn.name_eq

/-- `ATopLevel` is written as `null` and synthesized from `A`: it stays behind `A` and is merged,
and from it another name is synthesized in turn. -/
theorem declarations_of_collect_wrappedDocument :
    collect {} wrappedDocument = .ok wrappedDeclarations ∧
      wrappedDeclarations.map Declaration.name =
        ["A", "ATopLevel", "JSSTTopLevel"] ++ ["ATopLevelTopLevel"] ++ ["JSONSchemaObject"] ∧
      ⟨"ATopLevel", .intersection [.named "A", .named "JSSTTopLevel"]⟩ ∈ wrappedDeclarations ∧
      ⟨"JSSTTopLevel", .ofSchema (arrayOrNode ["JSSTTopLevel", "ATopLevel"])⟩ ∈
        wrappedDeclarations := by
  obtain ⟨-, -, hnames, hmerged, hwritten, -⟩ := declarations_of_collect collect_wrappedDocument
  have hdefines : Defines wrappedDocument "JSSTTopLevel"
      (arrayOrNode ["JSSTTopLevel", "ATopLevel"]) :=
    ⟨[("A", arrayOrNode ["ATopLevel"]), ("ATopLevel", .object [("type", .string "null")])], [], rfl,
      List.forall_mem_nil _⟩
  exact ⟨collect_wrappedDocument, hnames.trans (by decide), hmerged "A" (by decide) (by decide),
    hwritten _ _ hdefines (by decide)⟩

end SchemaCodec
