import Mathlib.Data.List.Nodup
import SchemaCodec.Schema.Shape

/-!
# Values with distinct keys

A JSON value in the strict sense: no object in it has a key twice. The parts of such a value are
such values, however they are reached.
-/

namespace SchemaCodec.Json

/-- No object in the value, at any depth, has a key twice. -/
inductive DistinctKeys : Json → Prop
  | scalar (s : Scalar) : DistinctKeys (.scalar s)
  | array {items : List Json} (h : ∀ v ∈ items, DistinctKeys v) : DistinctKeys (.array items)
  | object {fields : List (String × Json)} (hkeys : (Entries.keys fields).Nodup)
      (h : ∀ p ∈ fields, DistinctKeys p.2) : DistinctKeys (.object fields)

namespace DistinctKeys

variable {v child : Json} {items : List Json} {fields : List (String × Json)} {key : String}

/-- Items of a value with distinct keys have distinct keys. -/
theorem item (h : DistinctKeys (.array items)) (hmem : child ∈ items) : child.DistinctKeys := by
  cases h with
  | array h => exact h child hmem

theorem nodup_keys (h : DistinctKeys (.object fields)) : (Entries.keys fields).Nodup := by
  cases h with
  | object hkeys _ => exact hkeys

/-- Field values of a value with distinct keys have distinct keys. -/
theorem entry (h : DistinctKeys (.object fields)) (hmem : (key, child) ∈ fields) :
    child.DistinctKeys := by
  cases h with
  | object _ h => exact h (key, child) hmem

/-- What is found under a key has distinct keys. -/
theorem field? (h : v.DistinctKeys) (hchild : v.field? key = some child) : child.DistinctKeys := by
  cases v with
  | object fields =>
    have hget : Entries.get? key fields = some child := hchild
    exact h.entry (Entries.mem_of_get?_eq_some hget)
  | scalar s => exact absurd hchild (by simp [Json.field?, fields?])
  | array items => exact absurd hchild (by simp [Json.field?, fields?])

end DistinctKeys

end SchemaCodec.Json
