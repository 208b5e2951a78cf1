import SchemaCodec.Text.Visible

/-!
# Quoted text for messages

A text in double quotes in which every character can be told apart: quotes, backslashes and the
common controls have short escapes, and a character without a visible form of its own is written by
its code point.
-/

namespace SchemaCodec.Text

/-- The written form of a character. -/
def escapeVisibly (c : Char) : String :=
  if c = '\x00' then "\\0"
  else if c = '\t' then "\\t"
  else if c = '\r' then "\\r"
  else if c = '\n' then "\\n"
  else if c = '"' then "\\\""
  else if c = '\\' then "\\\\"
  else if isVisible c then String.singleton c
  else "\\u\x7b" ++ String.ofList (Nat.toDigits 16 c.toNat) ++ "\x7d"

/-- A text in double quotes. -/
def quoted (s : String) : String :=
  "\"" ++ String.join (s.toList.map escapeVisibly) ++ "\""

end SchemaCodec.Text
