import SchemaCodec.Compilation
import SchemaCodec.Proofs.Dependency.Sort
import SchemaCodec.Proofs.Entries
import SchemaCodec.Proofs.Schema.Reading

/-!
# What a compilation declares

The names that a document declares and what each stands for, said of the document itself: its
definitions, the declarations synthesized from those that are not scaffolding, and the document
without its definitions under the top-level name (`Declares`). Collection inserts one after the
other into ordered entries, where a synthesized name may take the place of a definition; what comes
out is exactly this relation, each name once (`typeOf?_collect_iff`, `nodup_names_collect`).

Sorting changes neither, so the same holds of a compilation (`typeOf?_compile_iff`,
`nodup_names_compile`), in which moreover every name that a type mentions is declared
(`exists_denotes_of_compile`). `treeDocument` is a small document with a cycle that compiles.
-/

namespace SchemaCodec

namespace Document

/-- The document defines `name` by `node`. An object has a key only once; were there more, the last
one would count. -/
def Defines (document : Json) (name : String) (node : Json) : Prop :=
  ∃ before after, document.field? "definitions" = some (.object (before ++ (name, node) :: after)) ∧
    ∀ p ∈ after, p.1 ≠ name

/-- `name` is synthesized for the definition `definition`, which is not scaffolding. -/
structure Synthesizes (settings : Settings) (document : Json) (definition name : String) :
    Prop where
  defined : ∃ node, Defines document definition node
  not_reserved : settings.isReserved definition = false
  name_eq : name = definition ++ settings.topLevelSuffix

/-- The document without its definitions. -/
def body : Json → Json
  | .object root => .object (root.filter fun p ↦ p.1 != "definitions")
  | other => other

/-- What a value can be held against: a declared name, a node of the document, or a definition
together with the envelope. -/
inductive Target where
  | named (name : String)
  | schema (node : Json)
  | enveloped (definition : String)

/-- What a declared name stands for. A synthesized declaration stands before a written one. -/
inductive Declares (settings : Settings) (document : Json) : String → Target → Prop
  | toplevel : Declares settings document settings.toplevel (.schema (body document))
  | synthesized {definition name : String} (h : Synthesizes settings document definition name) :
      Declares settings document name (.enveloped definition)
  | written {name : String} {node : Json} (h : Defines document name node)
      (hnot : ∀ definition, ¬Synthesizes settings document definition name) :
      Declares settings document name (.schema node)

/-- The type of a target. -/
def Target.type (settings : Settings) : Target → TypeExpr
  | .named name => .named name
  | .schema node => .ofSchema node
  | .enveloped definition => Declaration.enveloped settings definition

variable {settings : Settings} {document : Json}

/-- A synthesized name tells which definition it belongs to. -/
theorem Synthesizes.unique {definition definition' name : String}
    (h : Synthesizes settings document definition name)
    (h' : Synthesizes settings document definition' name) : definition = definition' := by
  have happend := h.name_eq.symm.trans h'.name_eq
  rw [← String.toList_inj, String.toList_append, String.toList_append] at happend
  exact String.toList_inj.1 (List.append_cancel_right happend)

end Document

namespace Declaration

open Document

variable {settings : Settings} {document : Json} {root written : Entries String Json}
  {ds : List Declaration} {name : String} {t : TypeExpr}

/-! ### Definitions -/

/-- What a document defines under a name is the last entry with that name. -/
theorem defines_iff {node : Json} (h : definitions root = .ok written) :
    Defines (.object root) name node ↔
      ∃ before after, written = before ++ (name, node) :: after ∧ ∀ p ∈ after, p.1 ≠ name := by
  have hfield : Json.field? (.object root) "definitions" = root.get? "definitions" := rfl
  unfold definitions at h
  simp only [Defines, hfield]
  split at h
  · next hget =>
    obtain rfl := Except.ok.inj h
    simp [hget]
  · next fields hget =>
    obtain rfl := Except.ok.inj h
    simp [hget]
  · exact absurd h (by simp)

/-- Exactly the keys of the definitions are defined. -/
theorem exists_defines_iff (h : definitions root = .ok written) :
    (∃ node, Defines (.object root) name node) ↔ name ∈ written.keys := by
  simp only [defines_iff h]
  constructor
  · rintro ⟨node, before, after, rfl, -⟩
    simp [Entries.keys]
  · intro hmem
    obtain ⟨p, hp, rfl⟩ := List.mem_map.1 hmem
    obtain ⟨before, ⟨key, node⟩, after, hsplit, hafter, hkey⟩ :=
      Entries.exists_last (P := fun q : String × Json ↦ q.1 = p.1) ⟨p, hp, rfl⟩
    obtain rfl : key = p.1 := hkey
    exact ⟨node, before, after, hsplit, hafter⟩

/-- A name is synthesized from each definition that is not reserved, by appending the suffix. -/
theorem synthesizes_iff {definition : String} (h : definitions root = .ok written) :
    Synthesizes settings (.object root) definition name ↔
      definition ∈ written.keys.filter (fun d ↦ !settings.isReserved d) ∧
        settings.topLevelName definition = name := by
  rw [List.mem_filter, ← exists_defines_iff h]
  constructor
  · rintro ⟨hdefined, hreserved, rfl⟩
    exact ⟨⟨hdefined, by simp [hreserved]⟩, rfl⟩
  · rintro ⟨⟨hdefined, hreserved⟩, rfl⟩
    exact ⟨hdefined, by simpa using hreserved, rfl⟩

/-! ### Collection -/

/-- The entries of definitions and synthesized declarations, read by name. -/
theorem get?_definedTypes_iff (h : definitions root = .ok written) :
    (definedTypes settings written).get? name = some t ↔
      (∃ definition, Synthesizes settings (.object root) definition name ∧
          enveloped settings definition = t) ∨
        (∀ definition, ¬Synthesizes settings (.object root) definition name) ∧
          ∃ node, Defines (.object root) name node ∧ .ofSchema node = t := by
  rw [definedTypes, Entries.get?_foldl_insert_eq_some_iff, Entries.get?_foldl_insert_eq_some_iff]
  refine or_congr ?_ (and_congr ?_ ?_)
  · constructor
    · rintro ⟨before, definition, after, hsplit, -, hname, rfl⟩
      refine ⟨definition, (synthesizes_iff h).2 ⟨?_, hname⟩, rfl⟩
      rw [hsplit]
      exact List.mem_append_right _ List.mem_cons_self
    · rintro ⟨definition, hsyn, rfl⟩
      have hmem := (synthesizes_iff h).1 hsyn
      -- the last write under the name comes from the same definition
      obtain ⟨before, last, after, hsplit, hafter, hlast⟩ :=
        Entries.exists_last (P := fun d ↦ settings.topLevelName d = name) ⟨definition, hmem⟩
      have hlastsyn : Synthesizes settings (.object root) last name := by
        refine (synthesizes_iff h).2 ⟨?_, hlast⟩
        rw [hsplit]
        exact List.mem_append_right _ List.mem_cons_self
      obtain rfl := hlastsyn.unique hsyn
      exact ⟨before, last, after, hsplit, hafter, hlast, rfl⟩
  · simp only [synthesizes_iff h, not_and]
  · simp only [defines_iff h, Entries.get?, reduceCtorEq, and_false, or_false]
    constructor
    · rintro ⟨before, ⟨key, node⟩, after, hsplit, hafter, rfl, ht⟩
      exact ⟨node, ⟨before, after, hsplit, hafter⟩, ht⟩
    · rintro ⟨node, ⟨before, after, hsplit, hafter⟩, ht⟩
      exact ⟨before, (name, node), after, hsplit, hafter, rfl, ht⟩

theorem nodup_keys_definedTypes : (definedTypes settings written).keys.Nodup :=
  Entries.nodup_keys_foldl_insert (Entries.nodup_keys_foldl_insert List.nodup_nil)

/-- What a successful collection has done. -/
theorem collect_eq_ok (h : collect settings document = .ok ds) :
    ∃ root written, document = .object root ∧ definitions root = .ok written ∧
      (definedTypes settings written).get? settings.toplevel = none ∧
      ds = ((definedTypes settings written).insert settings.toplevel
        (.ofSchema (body document))).map fun p ↦ ⟨p.1, p.2⟩ := by
  unfold collect at h
  split at h
  · next root =>
    split at h
    · exact absurd h (by simp)
    · next written hwritten =>
      simp only at h
      split at h
      · exact absurd h (by simp)
      · next hfree =>
        split at h
        · exact absurd h (by simp)
        · obtain rfl := Except.ok.inj h
          exact ⟨root, written, rfl, hwritten, by simpa using hfree, rfl⟩
  · exact absurd h (by simp)

/-- No name is collected twice. -/
theorem nodup_names_collect (h : collect settings document = .ok ds) :
    (ds.map Declaration.name).Nodup := by
  obtain ⟨root, written, rfl, -, -, rfl⟩ := collect_eq_ok h
  rw [List.map_map]
  exact Entries.nodup_keys_insert nodup_keys_definedTypes

/-- **Collection declares what the document says.** -/
theorem typeOf?_collect_iff (h : collect settings document = .ok ds) :
    typeOf? ds name = some t ↔
      ∃ target, Declares settings document name target ∧ target.type settings = t := by
  rw [typeOf?_eq_some_iff_mem (nodup_names_collect h)]
  obtain ⟨root, written, rfl, hwritten, hfree, rfl⟩ := collect_eq_ok h
  have hmem : (⟨name, t⟩ : Declaration) ∈ ((definedTypes settings written).insert settings.toplevel
        (.ofSchema (body (.object root)))).map (fun p ↦ (⟨p.1, p.2⟩ : Declaration)) ↔
      ((definedTypes settings written).insert settings.toplevel
        (.ofSchema (body (.object root)))).get? name = some t := by
    rw [Entries.get?_eq_some_iff_mem (Entries.nodup_keys_insert nodup_keys_definedTypes)]
    simp
  rw [hmem, Entries.get?_insert]
  have hnone : ∀ t', (definedTypes settings written).get? settings.toplevel ≠ some t' := by
    simp [hfree]
  constructor
  · split
    · next htop =>
      subst htop
      exact fun ht ↦ ⟨_, .toplevel, Option.some_inj.1 ht⟩
    · rw [get?_definedTypes_iff hwritten]
      rintro (⟨definition, hsyn, ht⟩ | ⟨hnot, node, hdef, ht⟩)
      · exact ⟨_, .synthesized hsyn, ht⟩
      · exact ⟨_, .written hdef hnot, ht⟩
  · rintro ⟨target, (- | ⟨hsyn⟩ | ⟨hdef, hnot⟩), ht⟩
    · rw [if_pos rfl]
      exact congrArg some ht
    -- the top-level name is free, so the other two kinds are found behind it
    · have hget := (get?_definedTypes_iff hwritten).2 (.inl ⟨_, hsyn, ht⟩)
      rwa [if_neg (by rintro rfl; exact hnone _ hget)]
    · have hget := (get?_definedTypes_iff hwritten).2 (.inr ⟨hnot, _, hdef, ht⟩)
      rwa [if_neg (by rintro rfl; exact hnone _ hget)]

/-- Resolution succeeds exactly when every mentioned name is declared. -/
theorem resolve_eq_ok_iff :
    resolve ds = .ok () ↔ ∀ d ∈ ds, ∀ name ∈ d.type.names, ∃ e ∈ ds, e.name = name := by
  have hnone : resolve ds = .ok () ↔ unresolved? ds = none := by
    unfold resolve
    split <;> simp_all
  rw [hnone, unresolved?, List.findSome?_eq_none_iff]
  refine forall₂_congr fun d _ ↦ ?_
  rw [Option.map_eq_none_iff, List.find?_eq_none]
  simp [mem_references_iff]

end Declaration

/-! ### Compilation -/

open Declaration Document

variable {settings : Settings} {document : Json} {c : Compilation} {name : String} {t : TypeExpr}

/-- What a successful compilation has done. -/
theorem compile_eq_ok (h : compile settings document = .ok c) :
    ∃ ds, collect settings document = .ok ds ∧ resolve ds = .ok () ∧ c.declarations = sort ds := by
  unfold compile at h
  rcases hcollect : collect settings document with e | ds
  · rw [hcollect] at h
    exact absurd h (by simp [bind, Except.bind])
  · rw [hcollect] at h
    rcases hresolve : resolve ds with e | ⟨⟩
    · simp [bind, Except.bind, hresolve] at h
    · simp only [bind, Except.bind, hresolve] at h
      obtain rfl := Except.ok.inj h
      exact ⟨ds, rfl, hresolve, rfl⟩

/-- No name is declared twice: sorting only moves declarations. -/
theorem nodup_names_compile (h : compile settings document = .ok c) : c.names.Nodup := by
  obtain ⟨ds, hcollect, -, hsort⟩ := compile_eq_ok h
  rw [Compilation.names, hsort]
  exact ((sort_perm ds).map _).nodup_iff.2 (nodup_names_collect hcollect)

/-- **A compilation declares what the document says.** -/
theorem typeOf?_compile_iff (h : compile settings document = .ok c) :
    typeOf? c.declarations name = some t ↔
      ∃ target, Declares settings document name target ∧ target.type settings = t := by
  obtain ⟨ds, hcollect, -, hsort⟩ := compile_eq_ok h
  rw [hsort, ← typeOf?_collect_iff hcollect,
    typeOf?_eq_of_perm (sort_perm ds).symm (nodup_names_collect hcollect)]

/-- **Nothing dangles in a compilation.** -/
theorem exists_denotes_of_compile (h : compile settings document = .ok c) {d : Declaration}
    (hd : d ∈ c.declarations) (hname : name ∈ d.type.names) :
    ∃ i, Denotes c.declarations name i := by
  obtain ⟨ds, -, hresolve, hsort⟩ := compile_eq_ok h
  rw [hsort] at hd ⊢
  have hperm := sort_perm ds
  obtain ⟨e, he, rfl⟩ := resolve_eq_ok_iff.1 hresolve d (hperm.mem_iff.1 hd) name hname
  exact exists_denotes_of_mem (hperm.mem_iff.2 he)

/-! ### A document with a cycle -/

/-- A node that refers to the definition `Tree`. -/
def treeNode : Json :=
  .object [("$ref", .string "#/definitions/Tree")]

/-- A definition that refers to itself twice: on the same value, and on the items of an array. -/
def treeDocument : Json :=
  .object [("definitions", .object [
      ("JSSTTopLevel", .object [("type", .string "array")]),
      ("Tree", .object [("anyOf", .array [treeNode,
        .object [("type", .string "array"), ("items", treeNode)]])])]),
    ("$ref", .string "#/definitions/Tree")]

/-- What the document compiles to. -/
def treeCompilation : Compilation :=
  ⟨[⟨"JSSTTopLevel", .array .string⟩,
    ⟨"Tree", .union [.named "Tree", .array (.named "Tree")]⟩,
    ⟨"TreeTopLevel", .intersection [.named "Tree", .named "JSSTTopLevel"]⟩,
    ⟨"JSONSchemaObject", .named "Tree"⟩]⟩

theorem collect_treeDocument :
    collect {} treeDocument = .ok treeCompilation.declarations := by
  have htree : TypeExpr.ofSchema treeNode = .named "Tree" := ofSchema_eq _
  have hitems : TypeExpr.ofSchema (.object [("type", .string "array"), ("items", treeNode)]) =
      .array (.named "Tree") :=
    (ofSchema_eq _).trans (congrArg TypeExpr.array htree)
  show Except.ok [_, _, _, (⟨"JSONSchemaObject", .ofSchema treeNode⟩ : Declaration)] = _
  rw [ofSchema_eq, ofSchema_eq, htree]
  show Except.ok [_, (⟨_, .union [.ofSchema treeNode, .ofSchema _]⟩ : Declaration), _, _] = _
  rw [htree, hitems]
  rfl

theorem compile_treeDocument : compile {} treeDocument = .ok treeCompilation := by
  rw [compile, collect_treeDocument]
  show Except.ok (⟨sort treeCompilation.declarations⟩ : Compilation) = _
  rw [sort_eq_self (by decide)]

end SchemaCodec
