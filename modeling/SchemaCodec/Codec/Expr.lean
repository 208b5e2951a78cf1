import SchemaCodec.TypeExpr.Basic
import SchemaCodec.Identifier

/-!
# Codec expressions

The combinator expressions that the emitted module builds its codecs from. `CodecExpr.ofType` gives
the expression of a type and `CodecExpr.text` writes it. An intersection takes at most five members,
so a longer one nests its tail; an interface with both required and optional fields is the
intersection of a strict and a partial structure.
-/

namespace SchemaCodec

/-- A codec expression. -/
inductive CodecExpr where
  | null
  | boolean
  | number
  | string
  | never
  | unknown
  /-- The codec of another declaration. -/
  | reference (name : String)
  | literal (value : Json.Scalar)
  /-- Arrays of a fixed length. -/
  | tuple (items : List CodecExpr)
  | array (item : CodecExpr)
  /-- Objects with arbitrary keys. -/
  | record (values : CodecExpr)
  /-- Objects that have every listed property. -/
  | struct (properties : List (String × CodecExpr))
  /-- Objects in which every listed property may be missing. -/
  | partialStruct (properties : List (String × CodecExpr))
  | union (members : List CodecExpr)
  | intersection (members : List CodecExpr)

namespace CodecExpr

instance : Inhabited CodecExpr :=
  ⟨.unknown⟩

/-! ### The expression of a type -/

mutual

/-- The codec that accepts what matches a JSON value. -/
def ofLiteral : Json → CodecExpr
  | .scalar .null => .null
  | .scalar s => .literal s
  | .array items => .tuple (ofLiterals items)
  | .object fields => .struct (ofLiteralFields fields)

/-- The codecs of array items. -/
def ofLiterals : List Json → List CodecExpr
  | [] => []
  | v :: rest => ofLiteral v :: ofLiterals rest

/-- The codecs of fields. -/
def ofLiteralFields : List (String × Json) → List (String × CodecExpr)
  | [] => []
  | (key, v) :: rest => (key, ofLiteral v) :: ofLiteralFields rest

end

/-- How many members an intersection may have. -/
def maxMembers : Nat := 5

/-- The intersection of two or more members, its tail nested where there are too many. -/
def intersect (members : List CodecExpr) : CodecExpr :=
  if maxMembers < members.length then
    .intersection (members.take (maxMembers - 1) ++ [intersect (members.drop (maxMembers - 1))])
  else .intersection members
termination_by members.length
decreasing_by simp_all [maxMembers]; omega

/-- The union of any number of arms. -/
def ofUnion : List CodecExpr → CodecExpr
  | [] => .never
  | [only] => only
  | arms => .union arms

/-- The intersection of any number of arms. -/
def ofIntersection : List CodecExpr → CodecExpr
  | [] => .unknown
  | [only] => only
  | arms => intersect arms

/-- The properties that fields with the given optionality describe. -/
def properties (optional : Bool) (fields : List (Field CodecExpr)) : List (String × CodecExpr) :=
  (fields.filter fun f ↦ f.optional == optional).map fun f ↦ (f.name, f.type)

/-- The codec of an interface. -/
def ofInterface (fields : List (Field CodecExpr)) : CodecExpr :=
  match properties false fields, properties true fields with
  | required, [] => .struct required
  | [], optional => .partialStruct optional
  | required, optional => .intersection [.struct required, .partialStruct optional]

mutual

/-- The codec of a type. -/
def ofType : TypeExpr → CodecExpr
  | .null => .null
  | .boolean => .boolean
  | .number => .number
  | .string => .string
  | .named name => .reference name
  | .literal value => ofLiteral value
  | .array item => .array (ofType item)
  | .record values => .record (ofType values)
  | .interface fields => ofInterface (ofFields fields)
  | .union arms => ofUnion (ofTypes arms)
  | .intersection arms => ofIntersection (ofTypes arms)

/-- The codecs of types. -/
def ofTypes : List TypeExpr → List CodecExpr
  | [] => []
  | t :: rest => ofType t :: ofTypes rest

/-- The fields with the codecs of their types. -/
def ofFields : List (Field TypeExpr) → List (Field CodecExpr)
  | [] => []
  | ⟨name, t, optional⟩ :: rest => ⟨name, ofType t, optional⟩ :: ofFields rest

end

/-! ### Text -/

/-- A property list in braces. -/
def braces : List String → String
  | [] => "\x7b\x7d"
  | properties => "\x7b " ++ ", ".intercalate properties ++ " \x7d"

mutual

/-- The text of a codec expression. -/
def text : CodecExpr → String
  | .null => "t.null"
  | .boolean => "t.boolean"
  | .number => "t.number"
  | .string => "t.string"
  | .never => "t.never"
  | .unknown => "t.unknown"
  | .reference name => name
  | .literal value => "t.literal(" ++ value.text ++ ")"
  | .tuple items => "t.tuple([" ++ ", ".intercalate (textList items) ++ "])"
  | .array item => "t.array(" ++ item.text ++ ")"
  | .record values => "t.record(t.string, " ++ values.text ++ ")"
  | .struct properties => "t.type(" ++ braces (textProperties properties) ++ ")"
  | .partialStruct properties => "t.partial(" ++ braces (textProperties properties) ++ ")"
  | .union members => "t.union([" ++ ", ".intercalate (textList members) ++ "])"
  | .intersection members => "t.intersection([" ++ ", ".intercalate (textList members) ++ "])"

/-- The texts of expressions. -/
def textList : List CodecExpr → List String
  | [] => []
  | e :: rest => e.text :: textList rest

/-- The texts of properties. -/
def textProperties : List (String × CodecExpr) → List String
  | [] => []
  | (key, e) :: rest => (Identifier.propertyKey key ++ ": " ++ e.text) :: textProperties rest

end

end CodecExpr

end SchemaCodec
