import SchemaCodec.Proofs.Json.Reordering
import SchemaCodec.Proofs.Schema.Mentions

/-!
# Reading does not depend on the order of keys

Every rule by which a node is read looks at keywords, and a keyword is found wherever it stands. So
a node and a reordered one are read by the same rule, with parts that are reordered in turn.
Conditions that say what is missing pass to a reordered node since the relation is symmetric.
-/

namespace SchemaCodec.Schema

open Json

variable {node node' child : Json} {name key type : String}

/-- The conditions of the reading rules do not look at the order of fields. -/
theorem rule_reordered {rule : Json → Prop} (hrule : rule ∈ keywordRules)
    (hnode : Reordered node node') (h : rule node) : rule node' := by
  simp only [keywordRules, List.mem_cons, List.not_mem_nil, or_false] at hrule
  rcases hrule with rfl | rfl | rfl | rfl | rfl
  · obtain ⟨target, h⟩ := h
    exact ⟨target, hnode.field?_string h⟩
  · obtain ⟨value, h⟩ := h
    obtain ⟨value', h', -⟩ := hnode.exists_field? h
    exact ⟨value', h'⟩
  · obtain ⟨arms, h⟩ := h
    obtain ⟨arms', h', -⟩ := hnode.field?_array h
    exact ⟨arms', h'⟩
  · obtain ⟨arms, h⟩ := h
    obtain ⟨arms', h', -⟩ := hnode.field?_array h
    exact ⟨arms', h'⟩
  · obtain ⟨hnone, fields, h⟩ := h
    obtain ⟨fields', h', -⟩ := hnode.field?_object h
    exact ⟨hnode.field?_eq_none hnone, fields', h'⟩

/-- Reordering does not change which rules are passed over. -/
theorem PassesOver.reordered {count : ℕ} (h : PassesOver count node)
    (hnode : Reordered node node') : PassesOver count node' :=
  fun rule hrule hr ↦ h rule hrule (rule_reordered (List.mem_of_mem_take hrule) hnode.symm hr)

theorem HasType.reordered (h : HasType node type) (hnode : Reordered node node') :
    HasType node' type :=
  ⟨h.1.reordered hnode, hnode.field?_string h.2⟩

/-- A list of strings has nothing to reorder. -/
theorem eq_map_string_of_reordered {values : List String} {items : List Json}
    (h : Reordered (.array (values.map Json.string)) (.array items)) :
    items = values.map Json.string := by
  refine List.ext_getElem? fun i ↦ ?_
  rcases hi : items[i]? with - | y
  · rcases hi' : (values.map Json.string)[i]? with - | x
    · rfl
    · obtain ⟨y, hy, -⟩ := h.exists_getElem? hi'
      exact absurd (hi.symm.trans hy) (by simp)
  · obtain ⟨x, hx, hyx⟩ := h.symm.exists_getElem? hi
    obtain ⟨s, -, rfl⟩ := List.mem_map.1 (List.mem_of_getElem? hx)
    rw [hx, hyx.symm.eq_scalar]

/-- An enumeration keeps its values and their order: it is an array. -/
theorem HasEnum.reordered {values : List String} (h : HasEnum node values)
    (hnode : Reordered node node') : HasEnum node' values := by
  obtain ⟨items, hitems, hreordered⟩ := hnode.field?_array h.2
  rw [eq_map_string_of_reordered hreordered] at hitems
  exact ⟨h.1.reordered hnode, hitems⟩

theorem IsPlain.reordered (h : IsPlain node) (hnode : Reordered node node') : IsPlain node' where
  passesOver := h.passesOver.reordered hnode
  not_hasType type htype h' := h.not_hasType type htype (h'.reordered hnode.symm)
  not_hasEnum values h' := h.not_hasEnum values (h'.reordered hnode.symm)

/-- A listed property stays listed, with its schema reordered. -/
theorem ListsProperty.exists_reordered (h : ListsProperty node key child)
    (hnode : Reordered node node') :
    ∃ child', ListsProperty node' key child' ∧ Reordered child child' := by
  obtain ⟨properties, hproperties, hmem⟩ := h
  obtain ⟨properties', hproperties', hreordered⟩ := hnode.field?_object hproperties
  obtain ⟨child', hmem', hchild⟩ := hreordered.exists_mem_fields hmem
  exact ⟨child', ⟨properties', hproperties', hmem'⟩, hchild⟩

/-- A required property stays required. -/
theorem Requires.reordered (h : Requires node key) (hnode : Reordered node node') :
    Requires node' key := by
  obtain ⟨names, hnames, hmem⟩ := h
  obtain ⟨names', hnames', hreordered⟩ := hnode.field?_array hnames
  obtain ⟨y, hy, hkey⟩ := hreordered.exists_mem_items hmem
  obtain rfl := hkey.eq_scalar
  exact ⟨names', hnames', hy⟩

/-- The parts of a reordered node are reordered parts. -/
theorem Part.exists_reordered (h : Part node child) (hnode : Reordered node node') :
    ∃ child', Part node' child' ∧ Reordered child child' := by
  cases h with
  | anyOf hpass h hmem =>
    obtain ⟨arms', harms', hreordered⟩ := hnode.field?_array h
    obtain ⟨arm', hmem', harm⟩ := hreordered.exists_mem_items hmem
    exact ⟨arm', .anyOf (hpass.reordered hnode) harms' hmem', harm⟩
  | allOf hpass h hmem =>
    obtain ⟨arms', harms', hreordered⟩ := hnode.field?_array h
    obtain ⟨arm', hmem', harm⟩ := hreordered.exists_mem_items hmem
    exact ⟨arm', .allOf (hpass.reordered hnode) harms' hmem', harm⟩
  | record hpass hnone h =>
    obtain ⟨fields', hfields', hreordered⟩ := hnode.field?_object h
    exact ⟨_, .record (hpass.reordered hnode) (hnode.field?_eq_none hnone) hfields', hreordered⟩
  | object htype h =>
    obtain ⟨child', hlists, hchild⟩ := h.exists_reordered hnode
    exact ⟨child', .object (htype.reordered hnode) hlists, hchild⟩
  | arrayOf htype h =>
    obtain ⟨fields', hfields', hreordered⟩ := hnode.field?_object h
    exact ⟨_, .arrayOf (htype.reordered hnode) hfields', hreordered⟩

/-- **A reordered node mentions the same names.** -/
theorem Mentions.reordered (h : Mentions node name) (hnode : Reordered node node') :
    Mentions node' name := by
  induction h generalizing node' with
  | reference h hname => exact .reference (hnode.field?_string h) hname
  | part hpart _ ih =>
    obtain ⟨child', hpart', hchild⟩ := hpart.exists_reordered hnode
    exact .part hpart' (ih hchild)

end SchemaCodec.Schema
