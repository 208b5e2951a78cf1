import SchemaCodec.Schema.Shape
import SchemaCodec.TypeExpr.Basic

/-!
# The type of a schema node

Each shape denotes one type. Integers share the type of numbers, an enumeration is the union of its
strings, and an array without a schema for its items holds strings.
-/

namespace SchemaCodec.TypeExpr

/-- The type that a schema node denotes. -/
def ofSchema (node : Json) : TypeExpr :=
  match h : Shape.ofJson node with
  | .reference name => .named name
  | .const value => .literal value
  | .anyOf arms =>
    .union (arms.attach.map fun arm ↦
      have := Shape.sizeOf_lt_of_child h arm.2
      ofSchema arm.1)
  | .allOf arms =>
    .intersection (arms.attach.map fun arm ↦
      have := Shape.sizeOf_lt_of_child h arm.2
      ofSchema arm.1)
  | .record values =>
    have := Shape.sizeOf_lt_of_child h (List.mem_singleton_self values)
    .record (ofSchema values)
  | .object properties required =>
    .interface ((properties.getD []).attach.map fun p ↦
      have := Shape.sizeOf_lt_of_child h (List.mem_map_of_mem p.2)
      ⟨p.1.1, ofSchema p.1.2, !required.contains p.1.1⟩)
  | .array none => .array .string
  | .array (some items) =>
    have := Shape.sizeOf_lt_of_child h (List.mem_singleton_self items)
    .array (ofSchema items)
  | .number => .number
  | .integer => .number
  | .null => .null
  | .boolean => .boolean
  | .stringEnum values => .union (values.map fun v ↦ .literal (.string v))
  | .plainString => .string
termination_by sizeOf node

end SchemaCodec.TypeExpr
