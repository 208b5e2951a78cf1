import SchemaCodec.Proofs.Compilation.Collection

/-!
# The order in which declarations are collected

`declaredNames` lists the names of a document by kind: its definitions as they are written, the
names synthesized from them, and the top-level name. A name may come up twice there, since a
synthesized name can also be written as a definition; a collection then has it once, where it came
up first (`names_collected`). So to ask for the first declaration with a property it does not matter
whether the list with repetitions is searched or the collection (`isFirst_eraseDups_iff`).
-/

namespace SchemaCodec

/-! ### Names in order -/

namespace Document

/-- The names of the definitions, in the order of the document. -/
def definitionNames (document : Json) : List String :=
  Entries.keys (((document.field? "definitions").bind Json.fields?).getD [])

/-- The names synthesized for definitions that are not scaffolding. -/
def synthesizedNames (settings : Settings) (document : Json) : List String :=
  ((definitionNames document).filter fun name ↦ !settings.isReserved name).map
    (· ++ settings.topLevelSuffix)

/-- All names that a document declares, kind by kind. -/
def declaredNames (settings : Settings) (document : Json) : List String :=
  definitionNames document ++ (synthesizedNames settings document ++ [settings.toplevel])

end Document

namespace Declaration

open Document

variable {settings : Settings} {root written : Entries String Json} {name : String}

/-- The names of the definitions are the keys of what was read. -/
theorem definitionNames_eq_keys (h : definitions root = .ok written) :
    definitionNames (.object root) = written.keys := by
  show Entries.keys (((root.get? "definitions").bind Json.fields?).getD []) = _
  unfold definitions at h
  split at h
  · next hget =>
    obtain rfl := Except.ok.inj h
    simp [hget]
  · next fields hget =>
    obtain rfl := Except.ok.inj h
    simp [hget, Json.fields?]
  · exact absurd h (by simp)

/-- Definitions and synthesized declarations have their names in order, each once. -/
theorem keys_definedTypes (h : definitions root = .ok written) :
    (definedTypes settings written).keys =
      (definitionNames (.object root) ++ synthesizedNames settings (.object root)).eraseDups := by
  have hsynthesized : synthesizedNames settings (.object root) =
      (written.keys.filter fun name ↦ !settings.isReserved name).map settings.topLevelName := by
    rw [synthesizedNames, definitionNames_eq_keys h]
    rfl
  have hwritten : Entries.keys (written.foldl
      (fun (types : Entries String TypeExpr) p ↦ types.insert p.1 (.ofSchema p.2)) []) =
        written.keys.eraseDups := by
    rw [Entries.keys_foldl_insert]
    simp [List.removeAll, Entries.keys]
  rw [hsynthesized, definitionNames_eq_keys h, definedTypes, Entries.keys_foldl_insert, hwritten,
    removeAll_eraseDups, List.eraseDups_append]

/-- The declarations of a document whose top-level name is free. -/
def collected (settings : Settings) (root written : Entries String Json) : List Declaration :=
  ((definedTypes settings written).insert settings.toplevel
    (.ofSchema (body (.object root)))).map fun p ↦ ⟨p.1, p.2⟩

/-- The top-level name comes last. -/
theorem names_collected_eq_append (h : definitions root = .ok written)
    (hfree : settings.toplevel ∉ (definedTypes settings written).keys) :
    (collected settings root written).map Declaration.name =
      (definitionNames (.object root) ++ synthesizedNames settings (.object root)).eraseDups ++
        [settings.toplevel] := by
  have hkeys : (collected settings root written).map Declaration.name =
      ((definedTypes settings written).insert settings.toplevel
        (.ofSchema (body (.object root)))).keys := by
    rw [collected, List.map_map]
    rfl
  rw [hkeys, Entries.keys_insert, if_neg hfree, keys_definedTypes h]

/-- **A collection has every declared name once, where it comes up first.** -/
theorem names_collected (h : definitions root = .ok written)
    (hfree : settings.toplevel ∉ (definedTypes settings written).keys) :
    (collected settings root written).map Declaration.name =
      (declaredNames settings (.object root)).eraseDups := by
  have htop : [settings.toplevel].removeAll
      (definitionNames (.object root) ++ synthesizedNames settings (.object root)) =
        [settings.toplevel] := by
    rw [keys_definedTypes h, List.mem_eraseDups] at hfree
    rw [List.cons_removeAll, if_pos (by simpa using hfree), List.nil_removeAll]
  rw [declaredNames, ← List.append_assoc, List.eraseDups_append, htop,
    names_collected_eq_append h hfree]
  rfl

end Declaration

end SchemaCodec
