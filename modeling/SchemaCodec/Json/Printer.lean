import SchemaCodec.Json.Basic
import SchemaCodec.Binary64.Shortest

/-!
# Compact JSON text

`Json.text` writes a value without blanks, fields in order. A string escapes the quote, the
backslash and the control characters below U+0020 and nothing else. A binary64 number is written
with the fewest digits that read back, positionally while its leading digit stands at a place from
`10 ^ -5` on and below `10 ^ 16`.
-/

namespace SchemaCodec.Json

/-- The lowercase hexadecimal digit of a number below 16. -/
def hexDigit (n : Nat) : Char :=
  Nat.digitChar n

/-- The written form of one character of a string. -/
def escapeChar (c : Char) : List Char :=
  if c = '"' then ['\\', '"']
  else if c = '\\' then ['\\', '\\']
  else if c = '\x08' then ['\\', 'b']
  else if c = '\x0c' then ['\\', 'f']
  else if c = '\n' then ['\\', 'n']
  else if c = '\r' then ['\\', 'r']
  else if c = '\t' then ['\\', 't']
  else if c.toNat < 0x20 then ['\\', 'u', '0', '0', hexDigit (c.toNat / 16), hexDigit (c.toNat % 16)]
  else [c]

/-- A string in quotes. -/
def quote (s : String) : String :=
  String.ofList ('"' :: s.toList.flatMap escapeChar ++ ['"'])

/-- Numbers are written positionally while the leading digit stands at a place from `-5` on and
below `16`, and a tie goes to the even digit. -/
def numberStyle : Binary64.Style :=
  ⟨⟨some (-5), some 16⟩, .even⟩

/-- The decimal form of an integer. -/
def integerText (i : Int) : String :=
  (if i < 0 then "-" else "") ++ String.ofList (Nat.toDigits 10 i.natAbs)

/-- The text of a number. -/
def Number.text : Number → String
  | .integer i => integerText i
  | .binary x => x.text numberStyle

/-- The text of a scalar. -/
def Scalar.text : Scalar → String
  | .null => "null"
  | .bool true => "true"
  | .bool false => "false"
  | .number n => n.text
  | .string s => quote s

mutual

/-- The compact text of a value. -/
def text : Json → String
  | .scalar s => s.text
  | .array items => "[" ++ ",".intercalate (textItems items) ++ "]"
  | .object fields => "\x7b" ++ ",".intercalate (textFields fields) ++ "\x7d"

/-- The texts of array items. -/
def textItems : List Json → List String
  | [] => []
  | v :: rest => v.text :: textItems rest

/-- The texts of fields. -/
def textFields : List (String × Json) → List String
  | [] => []
  | (key, v) :: rest => (quote key ++ ":" ++ v.text) :: textFields rest

end

end SchemaCodec.Json
