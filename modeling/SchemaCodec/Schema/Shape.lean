import SchemaCodec.Json.Basic

/-!
# Shapes of schema nodes

Any JSON value is a schema node, and every node has exactly one shape, found by trying keywords in a
fixed order: `$ref`, `const`, `anyOf`, `allOf`, `additionalProperties`, and last `type`. A keyword
whose value has the wrong kind is passed over, and what matches nothing is a plain string.
-/

namespace SchemaCodec

/-- The shape of a schema node, with the parts that give it meaning. -/
inductive Shape where
  | reference (name : String)
  | const (value : Json)
  | anyOf (arms : List Json)
  | allOf (arms : List Json)
  /-- An object used as a dictionary; its values have the given schema. -/
  | record (values : Json)
  /-- An object with known properties; those listed in `required` must be present. -/
  | object (properties : Option (Entries String Json)) (required : List String)
  /-- An array; `none` if the schema of its items is missing. -/
  | array (items : Option Json)
  | number
  | integer
  | null
  | boolean
  | stringEnum (values : List String)
  | plainString

namespace Shape

/-- The declaration a reference points at: what follows the last slash. -/
def referenceName (target : String) : String :=
  String.ofList (target.toList.reverse.takeWhile (· != '/')).reverse

/-- The strings in the `required` list of a node, each once, in the order of first occurrence. -/
def requiredNames (fields : Entries String Json) : List String :=
  match (fields.get? "required").bind Json.items? with
  | none => []
  | some names => (names.filterMap Json.string?).eraseDups

/-- The schema of the values of a dictionary: `additionalProperties`, if that is an object and the
node has no `properties`. -/
def recordValues? (fields : Entries String Json) : Option Json :=
  if (fields.get? "properties").isSome then none
  else (fields.get? "additionalProperties").filter Json.isObject

/-- The values of an `enum` that lists strings only. -/
def enumStrings? (fields : Entries String Json) : Option (List String) :=
  ((fields.get? "enum").bind Json.items?).bind (List.mapM Json.string?)

/-- The shape that the `type` of a node gives it. -/
def ofType (fields : Entries String Json) : Shape :=
  match (fields.get? "type").bind Json.string? with
  | none => plainString
  | some type =>
    if type = "object" then
      object ((fields.get? "properties").bind Json.fields?) (requiredNames fields)
    else if type = "array" then array (fields.get? "items")
    else if type = "number" then number
    else if type = "integer" then integer
    else if type = "null" then null
    else if type = "boolean" then boolean
    else if type = "string" then
      match enumStrings? fields with
      | some values => stringEnum values
      | none => plainString
    else plainString

/-- The shape of an object node. -/
def ofFields (fields : Entries String Json) : Shape :=
  match (fields.get? "$ref").bind Json.string? with
  | some target => reference (referenceName target)
  | none =>
    match fields.get? "const" with
    | some value => const value
    | none =>
      match (fields.get? "anyOf").bind Json.items? with
      | some arms => anyOf arms
      | none =>
        match (fields.get? "allOf").bind Json.items? with
        | some arms => allOf arms
        | none =>
          match recordValues? fields with
          | some values => record values
          | none => ofType fields

/-- The shape of a node. -/
def ofJson : Json → Shape
  | .object fields => ofFields fields
  | _ => plainString

/-- The schema nodes directly below a shape. -/
def children : Shape → List Json
  | anyOf arms => arms
  | allOf arms => arms
  | record values => [values]
  | object properties _ => (properties.getD []).map Prod.snd
  | array items => items.toList
  | _ => []

/-! ### Children are smaller than their node -/

theorem sizeOf_lt_of_items {value child : Json} {items : List Json}
    (h : value.items? = some items) (hc : child ∈ items) : sizeOf child < sizeOf value := by
  cases value with
  | array l =>
    obtain rfl : l = items := by simpa [Json.items?] using h
    have := List.sizeOf_lt_of_mem hc
    simp only [Json.array.sizeOf_spec]
    omega
  | scalar s => simp [Json.items?] at h
  | object l => simp [Json.items?] at h

theorem sizeOf_lt_of_fields {value child : Json} {fields : Entries String Json} {key : String}
    (h : value.fields? = some fields) (hc : (key, child) ∈ fields) :
    sizeOf child < sizeOf value := by
  cases value with
  | object l =>
    obtain rfl : l = fields := by simpa [Json.fields?] using h
    have := List.sizeOf_lt_of_mem hc
    simp only [Json.object.sizeOf_spec, Prod.mk.sizeOf_spec] at this ⊢
    omega
  | scalar s => simp [Json.fields?] at h
  | array l => simp [Json.fields?] at h

theorem sizeOf_lt_of_mem_children_ofType {fields : Entries String Json} {child : Json}
    (h : child ∈ (ofType fields).children) : sizeOf child < sizeOf fields := by
  unfold ofType at h
  split at h
  · simp [children] at h
  · split at h
    · cases hp : (fields.get? "properties").bind Json.fields? with
      | none => simp [children, hp] at h
      | some properties =>
        obtain ⟨value, hv, hf⟩ := Option.bind_eq_some_iff.1 hp
        simp only [children, hp, Option.getD_some, List.mem_map, Prod.exists] at h
        obtain ⟨key, _, hmem, rfl⟩ := h
        exact Nat.lt_trans (sizeOf_lt_of_fields hf hmem) (Json.sizeOf_lt_of_get? hv)
    · split at h
      · simp only [children, Option.mem_toList] at h
        exact Json.sizeOf_lt_of_get? h
      · repeat' split at h
        all_goals simp [children] at h

theorem sizeOf_lt_of_mem_children {node child : Json} (h : child ∈ (ofJson node).children) :
    sizeOf child < sizeOf node := by
  cases node with
  | scalar s => simp [ofJson, children] at h
  | array items => simp [ofJson, children] at h
  | object fields =>
    suffices sizeOf child < sizeOf fields by
      simp only [Json.object.sizeOf_spec]
      omega
    simp only [ofJson, ofFields] at h
    split at h
    · simp [children] at h
    · split at h
      · simp [children] at h
      · split at h
        · next harms =>
          obtain ⟨value, hv, hi⟩ := Option.bind_eq_some_iff.1 harms
          exact Nat.lt_trans (sizeOf_lt_of_items hi h) (Json.sizeOf_lt_of_get? hv)
        · split at h
          · next harms =>
            obtain ⟨value, hv, hi⟩ := Option.bind_eq_some_iff.1 harms
            exact Nat.lt_trans (sizeOf_lt_of_items hi h) (Json.sizeOf_lt_of_get? hv)
          · split at h
            · next hr =>
              simp only [children, List.mem_singleton] at h
              subst h
              unfold recordValues? at hr
              split at hr
              · simp at hr
              · exact Json.sizeOf_lt_of_get? (Option.filter_eq_some_iff.1 hr).1
            · exact sizeOf_lt_of_mem_children_ofType h

/-- The children of a node's shape are smaller than the node. -/
theorem sizeOf_lt_of_child {node child : Json} {shape : Shape} (h : ofJson node = shape)
    (hc : child ∈ shape.children) : sizeOf child < sizeOf node :=
  sizeOf_lt_of_mem_children (h ▸ hc)

end Shape

end SchemaCodec
