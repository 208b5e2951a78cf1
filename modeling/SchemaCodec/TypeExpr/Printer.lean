import SchemaCodec.TypeExpr.Basic
import SchemaCodec.Identifier

/-!
# Static types

`TypeExpr.text` writes a type as the right-hand side of a type alias. Unions and intersections of
two or more members are parenthesised, so they may stand anywhere.
-/

namespace SchemaCodec.TypeExpr

/-- Member declarations in braces. -/
def textBraces : List String → String
  | [] => "\x7b\x7d"
  | members => "\x7b " ++ "; ".intercalate members ++ " \x7d"

mutual

/-- The type of exactly one JSON value. -/
def literalText : Json → String
  | .scalar s => s.text
  | .array items => "[" ++ ", ".intercalate (literalTextItems items) ++ "]"
  | .object fields => textBraces (literalTextFields fields)

/-- The types of array items. -/
def literalTextItems : List Json → List String
  | [] => []
  | v :: rest => literalText v :: literalTextItems rest

/-- The member declarations of fields. -/
def literalTextFields : List (String × Json) → List String
  | [] => []
  | (key, v) :: rest =>
    (Identifier.propertyKey key ++ ": " ++ literalText v) :: literalTextFields rest

end

/-- Arms joined by an operator, or the given text for none. -/
def joinArms (operator empty : String) : List String → String
  | [] => empty
  | [only] => only
  | arms => "(" ++ operator.intercalate arms ++ ")"

mutual

/-- The text of a type. -/
def text : TypeExpr → String
  | .null => "null"
  | .boolean => "boolean"
  | .number => "number"
  | .string => "string"
  | .named name => name
  | .literal value => literalText value
  | .array item => "Array<" ++ item.text ++ ">"
  | .record values => "Record<string, " ++ values.text ++ ">"
  | .interface fields => textBraces (textFields fields)
  | .union arms => joinArms " | " "never" (textArms arms)
  | .intersection arms => joinArms " & " "unknown" (textArms arms)

/-- The texts of types. -/
def textArms : List TypeExpr → List String
  | [] => []
  | t :: rest => t.text :: textArms rest

/-- The member declarations of fields. -/
def textFields : List (Field TypeExpr) → List String
  | [] => []
  | ⟨name, t, optional⟩ :: rest =>
    (Identifier.propertyKey name ++ (if optional then "?" else "") ++ ": " ++ t.text) ::
      textFields rest

end

end SchemaCodec.TypeExpr
