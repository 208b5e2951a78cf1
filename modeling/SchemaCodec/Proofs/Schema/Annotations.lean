import Mathlib.Tactic.Simproc.ExistsAndEq
import SchemaCodec.Proofs.Schema.Mentions

/-!
# Annotations

Ten keywords decide how a node is read; every other key of a node is an annotation, such as a title
or a description. `strip` leaves the annotations out, of a node and of the nodes below it. Which
values hold nodes depends on the keyword they stand under (`Role`), not on their look: a property
may be called `title`, and a payload may hold anything, so neither is touched. Keywords that are
passed over are stripped like all others.

The keywords of a stripped node are those of the node, with stripped values (`field?_strip`), so
both are read by the same rule (`ReadsAs.strip`) and have the same type (`ofSchema_strip`).
-/

namespace SchemaCodec.Schema

/-- What the value of a keyword is. -/
inductive Role where
  /-- Plain data: a name, a payload or a list of them. -/
  | data
  /-- A schema node. -/
  | node
  /-- An array of schema nodes. -/
  | arms
  /-- An object that gives schema nodes to the names of properties. -/
  | properties

/-- The keywords by which nodes are read. -/
def keywords : Entries String Role :=
  [("$ref", .data), ("const", .data), ("anyOf", .arms), ("allOf", .arms),
    ("properties", .properties), ("additionalProperties", .node), ("type", .data),
    ("required", .data), ("items", .node), ("enum", .data)]

mutual

/-- A value without the annotations of the nodes in it. What is not of the kind that its role asks
for stays as it is. -/
def stripAs : Role → Json → Json
  | .node, .object fields => .object (stripKeywords fields)
  | .arms, .array items => .array (stripArms items)
  | .properties, .object fields => .object (stripProperties fields)
  | _, value => value

/-- The entries of a node that are no annotations. -/
def stripKeywords : List (String × Json) → List (String × Json)
  | [] => []
  | (key, value) :: rest =>
    match keywords.get? key with
    | none => stripKeywords rest
    | some role => (key, stripAs role value) :: stripKeywords rest

/-- Nodes without their annotations. -/
def stripArms : List Json → List Json
  | [] => []
  | node :: rest => stripAs .node node :: stripArms rest

/-- Properties without the annotations of their nodes. -/
def stripProperties : List (String × Json) → List (String × Json)
  | [] => []
  | (name, node) :: rest => (name, stripAs .node node) :: stripProperties rest

end

/-- A node without its annotations. -/
def strip (node : Json) : Json :=
  stripAs .node node

variable {node child : Json} {key type : String}

/-! ### Keywords of a stripped node -/

theorem strip_object (fields : List (String × Json)) :
    strip (.object fields) = .object (stripKeywords fields) :=
  rfl

theorem stripAs_data (value : Json) : stripAs .data value = value := by
  cases value <;> rfl

theorem stripArms_eq_map (items : List Json) : stripArms items = items.map strip := by
  induction items with
  | nil => rfl
  | cons node items ih => rw [stripArms, ih, List.map_cons, strip]

theorem stripProperties_eq_map (fields : List (String × Json)) :
    stripProperties fields = fields.map fun p ↦ (p.1, strip p.2) := by
  induction fields with
  | nil => rfl
  | cons p fields ih => rw [stripProperties, ih, List.map_cons, strip]

/-- Stripping keeps the keywords and nothing else, each stripped as its role says. -/
theorem get?_stripKeywords (key : String) (fields : Entries String Json) :
    Entries.get? key (stripKeywords fields) =
      (keywords.get? key).bind fun role ↦ (fields.get? key).map (stripAs role) := by
  induction fields with
  | nil => cases keywords.get? key <;> rfl
  | cons p fields ih =>
    obtain ⟨k, value⟩ := p
    by_cases hk : k = key
    · subst hk
      rcases hrole : keywords.get? k with - | role
      · simp [stripKeywords, hrole, ih]
      · simp [stripKeywords, hrole, Entries.get?]
    · rcases hrole : keywords.get? k with - | role <;>
        simp [stripKeywords, hrole, Entries.get?, hk, ih]

/-- A keyword of a stripped node is that of the node, stripped according to its role. -/
theorem field?_strip {role : Role} (node : Json) (h : keywords.get? key = some role) :
    (strip node).field? key = (node.field? key).map (stripAs role) := by
  cases node with
  | object fields =>
    rw [strip_object, field?_object, field?_object, get?_stripKeywords, h, Option.bind_some]
  | scalar s => rfl
  | array items => rfl

/-- A keyword that holds data is found as it was. -/
theorem field?_strip_data (node : Json) (h : keywords.get? key = some .data) :
    (strip node).field? key = node.field? key := by
  rw [field?_strip node h, funext stripAs_data, Option.map_id']

/-- A keyword that lists schemas is found with each of them stripped. -/
theorem field?_strip_arms_iff (h : keywords.get? key = some .arms) {items : List Json} :
    (strip node).field? key = some (.array items) ↔
      ∃ arms, node.field? key = some (.array arms) ∧ arms.map strip = items := by
  rw [field?_strip node h]
  rcases node.field? key with - | (s | arms | fields) <;> simp [stripAs, stripArms_eq_map]

/-- A keyword that holds a schema is found with the schema stripped. -/
theorem field?_strip_node_iff (h : keywords.get? key = some .node) {fields : List (String × Json)} :
    (strip node).field? key = some (.object fields) ↔
      ∃ inner, node.field? key = some (.object inner) ∧ strip (.object inner) = .object fields := by
  rw [field?_strip node h]
  rcases node.field? key with - | (s | arms | inner) <;> simp [stripAs, strip]

theorem field?_strip_properties :
    ((strip node).field? "properties").bind Json.fields? =
      ((node.field? "properties").bind Json.fields?).map fun properties ↦
        properties.map fun p ↦ (p.1, strip p.2) := by
  have hrole : keywords.get? "properties" = some .properties := rfl
  rw [field?_strip node hrole]
  rcases node.field? "properties" with - | (s | arms | inner) <;>
    simp [stripAs, stripProperties_eq_map, Json.fields?]

/-! ### Both nodes are read by the same rule -/

/-- The conditions of the reading rules only look at keywords. -/
theorem rule_strip_iff {rule : Json → Prop} (hrule : rule ∈ keywordRules) :
    rule (strip node) ↔ rule node := by
  have harms {key : String} (h : keywords.get? key = some .arms) :
      (∃ items, (strip node).field? key = some (.array items)) ↔
        ∃ arms, node.field? key = some (.array arms) := by
    simp [field?_strip_arms_iff h]
  have hproperties : keywords.get? "properties" = some .properties := rfl
  have hvalues : keywords.get? "additionalProperties" = some .node := rfl
  simp only [keywordRules, List.mem_cons, List.not_mem_nil, or_false] at hrule
  rcases hrule with rfl | rfl | rfl | rfl | rfl
  · exact exists_congr fun target ↦ by rw [field?_strip_data node rfl]
  · exact exists_congr fun value ↦ by rw [field?_strip_data node rfl]
  · exact harms rfl
  · exact harms rfl
  · -- whatever `properties` holds, it blocks the rule in both nodes
    simp [field?_strip node hproperties, field?_strip_node_iff hvalues, strip_object]

/-- Stripping does not change which rule applies. -/
theorem passesOver_strip_iff {count : ℕ} : PassesOver count (strip node) ↔ PassesOver count node :=
  forall₂_congr fun _ hrule ↦ not_congr (rule_strip_iff (List.mem_of_mem_take hrule))

theorem hasType_strip_iff : HasType (strip node) type ↔ HasType node type := by
  rw [HasType, HasType, passesOver_strip_iff, field?_strip_data node rfl]

theorem hasEnum_strip_iff {values : List String} :
    HasEnum (strip node) values ↔ HasEnum node values := by
  rw [HasEnum, HasEnum, hasType_strip_iff, field?_strip_data node rfl]

theorem IsPlain.strip (h : IsPlain node) : IsPlain (strip node) where
  passesOver := passesOver_strip_iff.2 h.passesOver
  not_hasType type htype h' := h.not_hasType type htype (hasType_strip_iff.1 h')
  not_hasEnum values h' := h.not_hasEnum values (hasEnum_strip_iff.1 h')

/-- Stripping keeps the required names. -/
theorem requiredNames_stripKeywords (fields : Entries String Json) :
    Shape.requiredNames (stripKeywords fields) = Shape.requiredNames fields := by
  have hget : Entries.get? "required" (stripKeywords fields) = fields.get? "required" :=
    field?_strip_data (.object fields) rfl
  rw [Shape.requiredNames, hget, Shape.requiredNames]

/-- A stripped node lists the members of the node, if this holds of its properties. -/
theorem members_strip
    (ih : ∀ key child, ListsProperty node key child →
      TypeExpr.ofSchema (strip child) = .ofSchema child) :
    members (strip node) = members node := by
  have hrequired : ((strip node).fields?.map Shape.requiredNames) =
      node.fields?.map Shape.requiredNames := by
    cases node with
    | object fields => exact congrArg some (requiredNames_stripKeywords fields)
    | scalar s => rfl
    | array items => rfl
  rw [members, members, hrequired, field?_strip_properties]
  simp only [listsProperty_iff] at ih
  generalize (node.field? "properties").bind Json.fields? = found at ih ⊢
  cases found with
  | none => rfl
  | some properties =>
    simp only [Option.map_some, Option.getD_some, List.map_map] at ih ⊢
    refine List.map_congr_left fun p hp ↦ ?_
    simp only [Function.comp_apply, ih p.1 p.2 hp]

/-- Whatever a rule says of a node, it says of the stripped node, if the parts of the node keep
their types. -/
theorem ReadsAs.strip {t : TypeExpr} (h : ReadsAs node t)
    (ih : ∀ child, Part node child → TypeExpr.ofSchema (strip child) = .ofSchema child) :
    ReadsAs (strip node) t := by
  have harms {arms : List Json} (hparts : ∀ arm ∈ arms, Part node arm) :
      (arms.map Schema.strip).map TypeExpr.ofSchema = arms.map .ofSchema := by
    rw [List.map_map]
    exact List.map_congr_left fun arm harm ↦ ih arm (hparts arm harm)
  cases h with
  | reference h hname => exact .reference (by rwa [field?_strip_data node rfl]) hname
  | const hpass h =>
    exact .const (passesOver_strip_iff.2 hpass) (by rwa [field?_strip_data node rfl])
  | anyOf hpass h =>
    rw [← harms fun arm harm ↦ .anyOf hpass h harm]
    exact .anyOf (passesOver_strip_iff.2 hpass) ((field?_strip_arms_iff rfl).2 ⟨_, h, rfl⟩)
  | allOf hpass h =>
    rw [← harms fun arm harm ↦ .allOf hpass h harm]
    exact .allOf (passesOver_strip_iff.2 hpass) ((field?_strip_arms_iff rfl).2 ⟨_, h, rfl⟩)
  | record hpass hnone h =>
    rw [← ih _ (.record hpass hnone h), strip_object]
    refine .record (passesOver_strip_iff.2 hpass) ?_ ((field?_strip_node_iff rfl).2 ⟨_, h, rfl⟩)
    have hproperties : keywords.get? "properties" = some .properties := rfl
    rw [field?_strip node hproperties, hnone, Option.map_none]
  | object h =>
    rw [← members_strip fun key child hlists ↦ ih child (.object h hlists)]
    exact .object (hasType_strip_iff.2 h)
  | arrayOf h hitems =>
    rw [← ih _ (.arrayOf h hitems), strip_object]
    exact .arrayOf (hasType_strip_iff.2 h) ((field?_strip_node_iff rfl).2 ⟨_, hitems, rfl⟩)
  | arrayOfStrings h hitems =>
    refine .arrayOfStrings (hasType_strip_iff.2 h) fun fields hfields ↦ ?_
    obtain ⟨inner, hinner, -⟩ := (field?_strip_node_iff rfl).1 hfields
    exact hitems inner hinner
  | number h => exact .number (h.imp hasType_strip_iff.2 hasType_strip_iff.2)
  | null h => exact .null (hasType_strip_iff.2 h)
  | boolean h => exact .boolean (hasType_strip_iff.2 h)
  | stringEnum h => exact .stringEnum (hasEnum_strip_iff.2 h)
  | plainString h => exact .plainString h.strip

/-- **Annotations mean nothing.** A node and the node without its annotations have the same type. -/
theorem ofSchema_strip (node : Json) : TypeExpr.ofSchema (strip node) = .ofSchema node := by
  induction hsize : sizeOf node using Nat.strong_induction_on generalizing node with
  | _ n ih =>
    have hparts (child : Json) (hpart : Part node child) :
        TypeExpr.ofSchema (strip child) = .ofSchema child :=
      ih _ (hsize ▸ hpart.sizeOf_lt) child rfl
    exact ((readsAs_ofSchema node).strip hparts).eq

/-- A property called `title` and a description in a payload are no annotations. -/
example : strip (.object [("title", .string "Pair"), ("type", .string "object"),
      ("properties", .object [("title", .object [("const", .object [("description", .null)]),
        ("description", .string "the payload")])])]) =
    .object [("type", .string "object"),
      ("properties", .object [("title", .object [("const", .object [("description", .null)])])])] :=
  rfl

end SchemaCodec.Schema
