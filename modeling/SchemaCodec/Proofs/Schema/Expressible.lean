import SchemaCodec.Proofs.Json.DistinctKeys
import SchemaCodec.Proofs.Schema.Mentions
import SchemaCodec.Proofs.Subtree

/-!
# The types that schemas express

Not every type is the type of a schema node. A reference is cut at its last slash, so no name in the
type of a node has one; the members of an interface come from the keys of an object, so they have
distinct names; and a payload is a value of the document. These three conditions, at every place in
the type, are all there is: a type that meets them is written back as a node (`toSchema`),
with one keyword for each way of building types and nothing that an earlier rule would claim.
-/

namespace SchemaCodec

namespace TypeExpr

/-- The types that a type is made of. -/
def children : TypeExpr → List TypeExpr
  | .array item => [item]
  | .record values => [values]
  | .interface fields => fields.map Field.type
  | .union arms => arms
  | .intersection arms => arms
  | _ => []

/-- What a schema can say at one place of a type. -/
def IsSayable : TypeExpr → Prop
  | .named name => '/' ∉ name.toList
  | .literal value => value.DistinctKeys
  | .interface fields => (fields.map Field.name).Nodup
  | _ => True

/-- Types that are sayable at every place. -/
def Expressible (t : TypeExpr) : Prop :=
  Everywhere children IsSayable t

end TypeExpr

/-! ### The type of a node -/

namespace Schema

open TypeExpr

variable {node child : Json} {t : TypeExpr}

/-- Parts of a schema with distinct keys have distinct keys. -/
theorem Part.distinctKeys (h : Part node child) (hnode : node.DistinctKeys) :
    child.DistinctKeys := by
  cases h with
  | anyOf _ h hmem => exact (hnode.field? h).item hmem
  | allOf _ h hmem => exact (hnode.field? h).item hmem
  | record _ _ h => exact hnode.field? h
  | object _ h =>
    obtain ⟨properties, hproperties, hmem⟩ := h
    exact (hnode.field? hproperties).entry hmem
  | arrayOf _ h => exact hnode.field? h

/-- The members of an interface have the names of the properties. -/
theorem nodup_names_members (hnode : node.DistinctKeys) :
    ((members node).map Field.name).Nodup := by
  have hnames : (members node).map Field.name =
      Entries.keys (((node.field? "properties").bind Json.fields?).getD []) := by
    simp [members, Entries.keys]
  rw [hnames]
  rcases hfound : (node.field? "properties").bind Json.fields? with - | properties
  · exact List.nodup_nil
  · exact (hnode.field? (bind_fields?_eq_some_iff.1 hfound)).nodup_keys

/-- What a schema with distinct keys is read as can be said again. -/
theorem isSayable_of_readsAs (h : ReadsAs node t) (hnode : node.DistinctKeys) : t.IsSayable := by
  cases h with
  | reference _ hname => exact hname.1
  | const _ h => exact hnode.field? h
  | object _ => exact nodup_names_members hnode
  | _ => trivial

/-- What the type of a node is made of comes from parts of the node, or is a string or one of the
listed strings. -/
theorem children_cases (h : ReadsAs node t) {s : TypeExpr} (hs : s ∈ t.children) :
    (∃ child, Part node child ∧ .ofSchema child = s) ∨ s = .string ∨
      ∃ text, s = .literal (.string text) := by
  cases h with
  | anyOf hpass h =>
    obtain ⟨arm, harm, rfl⟩ := List.mem_map.1 hs
    exact .inl ⟨arm, .anyOf hpass h harm, rfl⟩
  | allOf hpass h =>
    obtain ⟨arm, harm, rfl⟩ := List.mem_map.1 hs
    exact .inl ⟨arm, .allOf hpass h harm, rfl⟩
  | record hpass hnone h =>
    obtain rfl := List.mem_singleton.1 hs
    exact .inl ⟨_, .record hpass hnone h, rfl⟩
  | object htype =>
    obtain ⟨m, hm, rfl⟩ := List.mem_map.1 hs
    obtain ⟨child, hlists, hchild, -⟩ := mem_members_iff.1 hm
    exact .inl ⟨child, .object htype hlists, hchild⟩
  | arrayOf htype h =>
    obtain rfl := List.mem_singleton.1 hs
    exact .inl ⟨_, .arrayOf htype h, rfl⟩
  | arrayOfStrings => exact .inr (.inl (List.mem_singleton.1 hs))
  | stringEnum h =>
    obtain ⟨text, -, rfl⟩ := List.mem_map.1 hs
    exact .inr (.inr ⟨text, rfl⟩)
  | reference | const | number | null | boolean | plainString => exact absurd hs List.not_mem_nil

/-- **The type of a node is expressible.** -/
theorem expressible_ofSchema (hnode : node.DistinctKeys) :
    (TypeExpr.ofSchema node).Expressible := by
  induction hsize : sizeOf node using Nat.strong_induction_on generalizing node with
  | _ n ih =>
    have hread := readsAs_ofSchema node
    refine everywhere_iff.2 ⟨isSayable_of_readsAs hread hnode, fun s hs ↦ ?_⟩
    rcases children_cases hread hs with ⟨child, hpart, rfl⟩ | rfl | ⟨text, rfl⟩
    · exact ih _ (hsize ▸ hpart.sizeOf_lt) (hpart.distinctKeys hnode) rfl
    · exact everywhere_of_leaf trivial rfl
    · exact everywhere_of_leaf (.scalar (.string text)) rfl

end Schema

/-! ### A node for each type -/

namespace TypeExpr

/-- A node with the given `type`. -/
def typeNode (type : String) : Json :=
  .object [("type", .string type)]

/-- The names that an interface requires. -/
def requiredNames (fields : List (Field TypeExpr)) : List Json :=
  (fields.filter fun f ↦ !f.optional).map fun f ↦ .string f.name

mutual

/-- A node that has the given type. -/
def toSchema : TypeExpr → Json
  | .null => typeNode "null"
  | .boolean => typeNode "boolean"
  | .number => typeNode "number"
  | .string => typeNode "string"
  | .named name => .object [("$ref", .string name)]
  | .literal value => .object [("const", value)]
  | .array item => .object [("type", .string "array"), ("items", item.toSchema)]
  | .record values => .object [("additionalProperties", values.toSchema)]
  | .interface fields =>
    .object [("type", .string "object"), ("properties", .object (toSchemaFields fields)),
      ("required", .array (requiredNames fields))]
  | .union arms => .object [("anyOf", .array (toSchemaArms arms))]
  | .intersection arms => .object [("allOf", .array (toSchemaArms arms))]

/-- Nodes that have the given types. -/
def toSchemaArms : List TypeExpr → List Json
  | [] => []
  | t :: rest => t.toSchema :: toSchemaArms rest

/-- Properties that have the types of fields. -/
def toSchemaFields : List (Field TypeExpr) → List (String × Json)
  | [] => []
  | ⟨name, t, _⟩ :: rest => (name, t.toSchema) :: toSchemaFields rest

end

theorem toSchemaArms_eq_map (arms : List TypeExpr) : toSchemaArms arms = arms.map toSchema := by
  induction arms with
  | nil => rfl
  | cons t arms ih => rw [toSchemaArms, ih, List.map_cons]

theorem toSchemaFields_eq_map (fields : List (Field TypeExpr)) :
    toSchemaFields fields = fields.map fun f ↦ (f.name, f.type.toSchema) := by
  induction fields with
  | nil => rfl
  | cons f fields ih => rw [toSchemaFields, ih, List.map_cons]

theorem map_ofSchema_toSchemaArms {arms : List TypeExpr}
    (h : ∀ t ∈ arms, ofSchema t.toSchema = t) : (toSchemaArms arms).map ofSchema = arms := by
  rw [toSchemaArms_eq_map, List.map_map]
  exact (List.map_congr_left h).trans (List.map_id arms)

/-- Only an object can be the schema of the values of a dictionary. -/
theorem isObject_toSchema (t : TypeExpr) : t.toSchema.isObject = true := by
  cases t <;> rfl

theorem distinctKeys_singleton {key : String} {v : Json} (h : v.DistinctKeys) :
    Json.DistinctKeys (.object [(key, v)]) :=
  .object (List.nodup_singleton key) (List.forall_mem_singleton.2 h)

/-- A schema that is made from a type has distinct keys. -/
theorem distinctKeys_toSchema {t : TypeExpr} (h : t.Expressible) : t.toSchema.DistinctKeys := by
  induction t using TypeExpr.inductionOn with
  | null => exact distinctKeys_singleton (.scalar _)
  | boolean => exact distinctKeys_singleton (.scalar _)
  | number => exact distinctKeys_singleton (.scalar _)
  | string => exact distinctKeys_singleton (.scalar _)
  | named name => exact distinctKeys_singleton (.scalar _)
  | literal value => exact distinctKeys_singleton (h.root)
  | array item ih =>
    have hkeys : ["type", "items"].Nodup := by decide
    exact .object hkeys (List.forall_mem_cons.2 ⟨.scalar _,
      List.forall_mem_singleton.2 (ih (h.child List.mem_cons_self))⟩)
  | record values ih => exact distinctKeys_singleton (ih (h.child List.mem_cons_self))
  | interface fields ih =>
    have hproperties : Json.DistinctKeys (.object (toSchemaFields fields)) := by
      rw [toSchemaFields_eq_map]
      refine .object ?_ (List.forall_mem_map.2 fun f hf ↦
        ih f hf (h.child (List.mem_map_of_mem hf)))
      rw [Entries.keys, List.map_map]
      exact h.root
    have hrequired : Json.DistinctKeys (.array (requiredNames fields)) :=
      .array (List.forall_mem_map.2 fun f _ ↦ .scalar _)
    have hkeys : ["type", "properties", "required"].Nodup := by decide
    exact .object hkeys (List.forall_mem_cons.2 ⟨.scalar _,
      List.forall_mem_cons.2 ⟨hproperties, List.forall_mem_singleton.2 hrequired⟩⟩)
  | union arms ih =>
    rw [toSchema, toSchemaArms_eq_map]
    exact distinctKeys_singleton (.array (List.forall_mem_map.2 fun t ht ↦
      ih t ht (h.child ht)))
  | intersection arms ih =>
    rw [toSchema, toSchemaArms_eq_map]
    exact distinctKeys_singleton (.array (List.forall_mem_map.2 fun t ht ↦
      ih t ht (h.child ht)))

/-- With distinct names, a field is optional unless its own name is required. -/
theorem contains_requiredNames_eq {fields : List (Field TypeExpr)} {properties : Json}
    (hnames : (fields.map Field.name).Nodup) {f : Field TypeExpr} (hf : f ∈ fields) :
    (!(Shape.requiredNames [("type", .string "object"), ("properties", properties),
      ("required", .array (requiredNames fields))]).contains f.name) = f.optional := by
  have hrequired : (Shape.requiredNames [("type", .string "object"), ("properties", properties),
      ("required", .array (requiredNames fields))]).contains f.name = true ↔
      f.optional = false := by
    rw [Schema.contains_requiredNames_iff]
    constructor
    · rintro ⟨names, hfound, hmem⟩
      obtain rfl : requiredNames fields = names := Json.array.inj (Option.some_inj.1 hfound)
      obtain ⟨g, hg, hname⟩ := List.mem_map.1 hmem
      obtain ⟨hg, hoptional⟩ := List.mem_filter.1 hg
      obtain rfl : g = f := List.inj_on_of_nodup_map hnames hg hf (by simpa using hname)
      simpa using hoptional
    · intro hoptional
      refine ⟨requiredNames fields, rfl, List.mem_map.2 ⟨f, List.mem_filter.2 ⟨hf, ?_⟩, rfl⟩⟩
      simp [hoptional]
  cases hoptional : f.optional <;> simp_all

/-- **An expressible type is read back from its node.** -/
theorem ofSchema_toSchema {t : TypeExpr} (h : t.Expressible) : ofSchema t.toSchema = t := by
  induction t using TypeExpr.inductionOn with
  | null => exact ofSchema_eq _
  | boolean => exact ofSchema_eq _
  | number => exact ofSchema_eq _
  | string => exact ofSchema_eq _
  | named name =>
    have hname : '/' ∉ name.toList := h.root
    exact (Schema.ReadsAs.reference rfl ⟨hname, .inl rfl⟩).eq
  | literal value => exact ofSchema_eq _
  | array item ih =>
    refine (ofSchema_eq _).trans (congrArg TypeExpr.array ?_)
    exact ih (h.child List.mem_cons_self)
  | record values ih =>
    have hvalues := ih (h.child List.mem_cons_self)
    obtain ⟨fields, hfields⟩ := Schema.isObject_iff.1 (isObject_toSchema values)
    rw [hfields] at hvalues
    rw [toSchema, hfields]
    exact (ofSchema_eq _).trans (congrArg TypeExpr.record hvalues)
  | interface fields ih =>
    have hnames : (fields.map Field.name).Nodup := h.root
    refine (ofSchema_eq _).trans (congrArg TypeExpr.interface ?_)
    show List.map _ (toSchemaFields fields) = fields
    rw [toSchemaFields_eq_map, List.map_map]
    refine (List.map_congr_left fun f hf ↦ ?_).trans (List.map_id fields)
    have htype := ih f hf (h.child (List.mem_map_of_mem hf))
    simp only [Function.comp_apply, htype, contains_requiredNames_eq hnames hf, id_eq]
  | union arms ih =>
    refine (ofSchema_eq _).trans (congrArg TypeExpr.union ?_)
    exact map_ofSchema_toSchemaArms fun t ht ↦ ih t ht (h.child ht)
  | intersection arms ih =>
    refine (ofSchema_eq _).trans (congrArg TypeExpr.intersection ?_)
    exact map_ofSchema_toSchemaArms fun t ht ↦ ih t ht (h.child ht)

end TypeExpr

open TypeExpr in
/-- **Which types schemas express.** A type is the type of some JSON value, used as a schema node,
if and only if no name in it has a slash and in every interface in it the names of the fields are
distinct. JSON values have distinct keys here, the payloads in the type as well as the node. -/
theorem exists_ofSchema_eq_iff (t : TypeExpr) :
    (∃ node : Json, node.DistinctKeys ∧ ofSchema node = t) ↔
      (∀ name, Subtree children (.named name) t → '/' ∉ name.toList) ∧
      (∀ fields, Subtree children (.interface fields) t → (fields.map Field.name).Nodup) ∧
      ∀ value, Subtree children (.literal value) t → value.DistinctKeys := by
  constructor
  · rintro ⟨node, hnode, rfl⟩
    have h := Schema.expressible_ofSchema hnode
    exact ⟨fun name hname ↦ h _ hname, fun fields hfields ↦ h _ hfields, fun value hv ↦ h _ hv⟩
  · rintro ⟨hnames, hfields, hvalues⟩
    have h : t.Expressible := by
      intro s hs
      cases s with
      | named name => exact hnames name hs
      | literal value => exact hvalues value hs
      | interface fields => exact hfields fields hs
      | _ => trivial
    exact ⟨t.toSchema, distinctKeys_toSchema h, ofSchema_toSchema h⟩

end SchemaCodec
