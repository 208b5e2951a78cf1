import SchemaCodec.Json.Basic

/-!
# Type expressions

The types that a schema denotes, with references to other declarations by name. `references` lists
the names in a type, each once, in the order of first occurrence; literal payloads name nothing.
-/

namespace SchemaCodec

/-- A named field of an interface. -/
structure Field (τ : Type) where
  name : String
  type : τ
  optional : Bool

/-- A type expression. -/
inductive TypeExpr where
  | null
  | boolean
  | number
  | string
  /-- The declaration with this name. -/
  | named (name : String)
  /-- The values that match a JSON value. -/
  | literal (value : Json)
  | array (item : TypeExpr)
  /-- Objects with arbitrary keys. -/
  | record (values : TypeExpr)
  | interface (fields : List (Field TypeExpr))
  | union (arms : List TypeExpr)
  | intersection (arms : List TypeExpr)

namespace TypeExpr

instance : Inhabited TypeExpr :=
  ⟨.string⟩

mutual

/-- Every name in a type, from left to right, with repetitions. -/
def names : TypeExpr → List String
  | .null => []
  | .boolean => []
  | .number => []
  | .string => []
  | .named name => [name]
  | .literal _ => []
  | .array item => item.names
  | .record values => values.names
  | .interface fields => namesFields fields
  | .union arms => namesList arms
  | .intersection arms => namesList arms

/-- Every name in a list of types. -/
def namesList : List TypeExpr → List String
  | [] => []
  | t :: rest => t.names ++ namesList rest

/-- Every name in the types of fields. -/
def namesFields : List (Field TypeExpr) → List String
  | [] => []
  | ⟨_, t, _⟩ :: rest => t.names ++ namesFields rest

end

/-- The names in a type, each once, in the order of first occurrence. -/
def references (t : TypeExpr) : List String :=
  t.names.eraseDups

end TypeExpr

end SchemaCodec
