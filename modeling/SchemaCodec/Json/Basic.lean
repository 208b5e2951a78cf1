import SchemaCodec.Entries
import SchemaCodec.Binary64.Basic

/-!
# JSON values

A JSON value is a scalar, an array or an object; an object keeps its fields in order. A number is an
integer or a finite binary64 number, as it was spelled, and two numbers are *the same value* when
they round to numerically equal binary64 numbers.
-/

namespace SchemaCodec

namespace Json

/-- A JSON number: an integer as such, any other number as a finite binary64. -/
inductive Number where
  | integer (value : Int)
  | binary (value : Binary64)
deriving DecidableEq

namespace Number

/-- The binary64 number that stands for this one in comparisons, zero having no sign. -/
def magnitude? : Number → Option Binary64
  | .integer i => (Binary64.ofInt? i).map Binary64.unsignedZero
  | .binary x => some x.unsignedZero

/-- Whether two numbers are numerically equal once rounded to binary64. -/
def sameValue (m n : Number) : Bool :=
  m.magnitude? == n.magnitude?

end Number

/-- A JSON value without parts. -/
inductive Scalar where
  | null
  | bool (value : Bool)
  | number (value : Number)
  | string (value : String)
deriving DecidableEq

end Json

/-- A JSON value. -/
inductive Json where
  | scalar (value : Json.Scalar)
  | array (items : List Json)
  | object (fields : List (String × Json))

namespace Json

instance : Inhabited Json :=
  ⟨.scalar .null⟩

/-- The value `null`. -/
@[match_pattern] abbrev null : Json := .scalar .null

/-- A string value. -/
@[match_pattern] abbrev string (s : String) : Json := .scalar (.string s)

/-- The string a value holds. -/
def string? : Json → Option String
  | .string s => some s
  | _ => none

/-- The items of an array. -/
def items? : Json → Option (List Json)
  | .array items => some items
  | _ => none

/-- The fields of an object. -/
def fields? : Json → Option (Entries String Json)
  | .object fields => some fields
  | _ => none

/-- Whether the value is an object. -/
def isObject (value : Json) : Bool :=
  value.fields?.isSome

/-- The value of a field; `none` also if the value is no object. -/
def field? (value : Json) (key : String) : Option Json :=
  value.fields?.bind (Entries.get? key)

/-- The kind of a value with its article, for use in messages. -/
def kind : Json → String
  | .scalar .null => "null"
  | .scalar (.bool _) => "a boolean"
  | .scalar (.number _) => "a number"
  | .scalar (.string _) => "a string"
  | .array _ => "an array"
  | .object _ => "an object"

/-! ### Induction -/

/-- Structural induction, with the parts of a value as members of lists. -/
@[elab_as_elim]
theorem inductionOn {motive : Json → Prop} (scalar : ∀ s, motive (.scalar s))
    (array : ∀ items : List Json, (∀ v ∈ items, motive v) → motive (.array items))
    (object : ∀ fields : List (String × Json), (∀ p ∈ fields, motive p.2) →
      motive (.object fields)) (v : Json) : motive v :=
  @Json.rec motive (fun items ↦ ∀ v ∈ items, motive v) (fun fields ↦ ∀ p ∈ fields, motive p.2)
    (fun p ↦ motive p.2) scalar array object
    (fun _ h ↦ absurd h List.not_mem_nil)
    (fun _ _ hv hitems ↦ List.forall_mem_cons.2 ⟨hv, hitems⟩)
    (fun _ h ↦ absurd h List.not_mem_nil)
    (fun _ _ hp hfields ↦ List.forall_mem_cons.2 ⟨hp, hfields⟩)
    (fun _ _ h ↦ h) v

/-! ### Sizes of parts -/

theorem sizeOf_lt_of_mem_fields {p : String × Json} {fields : List (String × Json)}
    (h : p ∈ fields) : sizeOf p.2 < sizeOf fields := by
  have hmem := List.sizeOf_lt_of_mem h
  obtain ⟨key, value⟩ := p
  simp only [Prod.mk.sizeOf_spec] at hmem
  simp only
  omega

theorem sizeOf_lt_of_get? {key : String} {value : Json} {fields : Entries String Json}
    (h : Entries.get? key fields = some value) : sizeOf value < sizeOf fields :=
  sizeOf_lt_of_mem_fields (Entries.mem_of_get?_eq_some h)

theorem sizeOf_lt_of_field? {value child : Json} {key : String}
    (h : value.field? key = some child) : sizeOf child < sizeOf value := by
  cases value with
  | object fields =>
    have := sizeOf_lt_of_get? (show Entries.get? key fields = some child from h)
    simp only [object.sizeOf_spec]
    omega
  | scalar s => simp [field?, fields?] at h
  | array items => simp [field?, fields?] at h

end Json

end SchemaCodec
