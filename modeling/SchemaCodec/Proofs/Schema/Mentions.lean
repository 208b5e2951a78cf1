import SchemaCodec.Proofs.TypeExpr.Names
import SchemaCodec.Proofs.Schema.Reading

/-!
# The names that a schema node mentions

`Part node child` says that the rules read `node` by reading `child`, and `Mentions node name` that
a reference to `name` is found in `node` or in a part of it, parts of parts included. A keyword that
is passed over contributes nothing. These are the names that occur in the type of the node
(`mem_names_ofSchema_iff`).
-/

namespace SchemaCodec.Schema

/-- `child` is read when `node` is. -/
inductive Part : Json → Json → Prop
  | anyOf {node arm : Json} {arms : List Json} (hpass : PassesOver 2 node)
      (h : node.field? "anyOf" = some (.array arms)) (hmem : arm ∈ arms) : Part node arm
  | allOf {node arm : Json} {arms : List Json} (hpass : PassesOver 3 node)
      (h : node.field? "allOf" = some (.array arms)) (hmem : arm ∈ arms) : Part node arm
  | record {node : Json} {fields : List (String × Json)} (hpass : PassesOver 4 node)
      (hnone : node.field? "properties" = none)
      (h : node.field? "additionalProperties" = some (.object fields)) : Part node (.object fields)
  | object {node child : Json} {key : String} (htype : HasType node "object")
      (h : ListsProperty node key child) : Part node child
  | arrayOf {node : Json} {fields : List (String × Json)} (htype : HasType node "array")
      (h : node.field? "items" = some (.object fields)) : Part node (.object fields)

/-- A reference to `name` is found in the node. -/
inductive Mentions : Json → String → Prop
  | reference {node : Json} {target name : String} (h : node.field? "$ref" = some (.string target))
      (hname : LastSegment target name) : Mentions node name
  | part {node child : Json} {name : String} (hpart : Part node child) (h : Mentions child name) :
      Mentions node name

variable {node child : Json} {name : String}

/-- Parts are smaller, so a search through them ends. -/
theorem Part.sizeOf_lt (h : Part node child) : sizeOf child < sizeOf node := by
  cases h with
  | anyOf _ h hmem =>
    exact (Shape.sizeOf_lt_of_items rfl hmem).trans (Json.sizeOf_lt_of_field? h)
  | allOf _ h hmem =>
    exact (Shape.sizeOf_lt_of_items rfl hmem).trans (Json.sizeOf_lt_of_field? h)
  | record _ _ h => exact Json.sizeOf_lt_of_field? h
  | object _ h =>
    obtain ⟨properties, hproperties, hmem⟩ := h
    exact (Shape.sizeOf_lt_of_fields rfl hmem).trans (Json.sizeOf_lt_of_field? hproperties)
  | arrayOf _ h => exact Json.sizeOf_lt_of_field? h

/-- The names of a part are names of the node. -/
theorem Part.names_subset (h : Part node child) :
    (TypeExpr.ofSchema child).names ⊆ (TypeExpr.ofSchema node).names := by
  intro name hname
  cases h with
  | anyOf hpass h hmem =>
    rw [(ReadsAs.anyOf hpass h).eq]
    exact TypeExpr.mem_namesList_iff.2 ⟨_, List.mem_map_of_mem hmem, hname⟩
  | allOf hpass h hmem =>
    rw [(ReadsAs.allOf hpass h).eq]
    exact TypeExpr.mem_namesList_iff.2 ⟨_, List.mem_map_of_mem hmem, hname⟩
  | record hpass hnone h =>
    rw [(ReadsAs.record hpass hnone h).eq]
    exact hname
  | object htype h =>
    rw [(ReadsAs.object htype).eq]
    obtain ⟨optional, hmem, -⟩ := exists_member_of_listsProperty h
    exact TypeExpr.mem_namesFields_iff.2 ⟨_, hmem, hname⟩
  | arrayOf htype h =>
    rw [(ReadsAs.arrayOf htype h).eq]
    exact hname

/-- A name in the type of a node comes from a reference, or from a part. -/
theorem mem_names_cases {t : TypeExpr} (hread : ReadsAs node t) (h : name ∈ t.names) :
    (∃ target, node.field? "$ref" = some (.string target) ∧ LastSegment target name) ∨
      ∃ child, Part node child ∧ name ∈ (TypeExpr.ofSchema child).names := by
  cases hread with
  | reference href hlast =>
    obtain rfl := List.mem_singleton.1 h
    exact .inl ⟨_, href, hlast⟩
  | const => exact absurd h List.not_mem_nil
  | anyOf hpass hany =>
    obtain ⟨_, hmem, h⟩ := TypeExpr.mem_namesList_iff.1 h
    obtain ⟨arm, harm, rfl⟩ := List.mem_map.1 hmem
    exact .inr ⟨arm, .anyOf hpass hany harm, h⟩
  | allOf hpass hall =>
    obtain ⟨_, hmem, h⟩ := TypeExpr.mem_namesList_iff.1 h
    obtain ⟨arm, harm, rfl⟩ := List.mem_map.1 hmem
    exact .inr ⟨arm, .allOf hpass hall harm, h⟩
  | record hpass hnone hvalues => exact .inr ⟨_, .record hpass hnone hvalues, h⟩
  | object htype =>
    obtain ⟨m, hm, h⟩ := TypeExpr.mem_namesFields_iff.1 h
    obtain ⟨child, hlists, hchild, -⟩ := mem_members_iff.1 hm
    exact .inr ⟨child, .object htype hlists, hchild ▸ h⟩
  | arrayOf htype hitems => exact .inr ⟨_, .arrayOf htype hitems, h⟩
  | arrayOfStrings => exact absurd h List.not_mem_nil
  | number => exact absurd h List.not_mem_nil
  | null => exact absurd h List.not_mem_nil
  | boolean => exact absurd h List.not_mem_nil
  | stringEnum =>
    obtain ⟨_, hmem, h⟩ := TypeExpr.mem_namesList_iff.1 h
    obtain ⟨s, -, rfl⟩ := List.mem_map.1 hmem
    exact absurd h List.not_mem_nil
  | plainString => exact absurd h List.not_mem_nil

/-- **The names in the type of a node are those that the node mentions.** -/
theorem mem_names_ofSchema_iff :
    name ∈ (TypeExpr.ofSchema node).names ↔ Mentions node name := by
  constructor
  · intro h
    induction hsize : sizeOf node using Nat.strong_induction_on generalizing node with
    | _ n ih =>
      rcases mem_names_cases (readsAs_ofSchema node) h with ⟨target, href, hlast⟩ | ⟨child, hpart, h⟩
      · exact .reference href hlast
      · exact .part hpart (ih _ (hsize ▸ hpart.sizeOf_lt) h rfl)
  · intro h
    induction h with
    | reference h hname =>
      rw [(ReadsAs.reference h hname).eq]
      exact List.mem_singleton_self _
    | part hpart _ ih => exact hpart.names_subset ih

end SchemaCodec.Schema
