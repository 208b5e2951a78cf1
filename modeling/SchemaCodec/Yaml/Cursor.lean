/-!
# Places in a YAML text

A cursor holds what is left of a text and where that stands. A line break is a line feed, a carriage
return, both in that order, or one of three further characters; all but the last two count as a line
feed.
-/

namespace SchemaCodec.Yaml

/-- Spaces and tabs. -/
def isBlank (c : Char) : Bool :=
  c == ' ' || c == '\t'

/-- Characters that end a line. -/
def isBreak (c : Char) : Bool :=
  c == '\n' || c == '\r' || c == '\u0085' || c == '\u2028' || c == '\u2029'

/-- Characters that a text may hold. -/
def isAllowed (c : Char) : Bool :=
  let n := c.toNat
  n == 0x09 || n == 0x0A || n == 0x0D || n == 0x85 || decide (0x20 ≤ n ∧ n ≤ 0x7E) ||
    decide (0xA0 ≤ n ∧ n ≤ 0xFFFD) || decide (0x10000 ≤ n)

/-- A place in a text. -/
structure Cursor where
  rest : List Char
  line : Nat := 0
  column : Nat := 0
  /-- How many bytes precede the place in UTF-8. -/
  index : Nat := 0

namespace Cursor

/-- The next character. -/
def peek? (c : Cursor) : Option Char :=
  c.rest.head?

/-- Whether the character `i` places on is a blank, a break or missing. -/
def separatorAt (c : Cursor) (i : Nat) : Bool :=
  match c.rest[i]? with
  | none => true
  | some ch => isBlank ch || isBreak ch

/-- Moves over `count` characters of the same line. -/
def skip (c : Cursor) (count : Nat) : Cursor :=
  { c with
    rest := c.rest.drop count
    column := c.column + count
    index := c.index + (String.ofList (c.rest.take count)).utf8ByteSize }

/-- Moves over the line break here, and gives the character it stands for. -/
def skipBreak (c : Cursor) : Char × Cursor :=
  let next (kept : Char) (rest : List Char) (bytes : Nat) : Char × Cursor :=
    (kept, { rest, line := c.line + 1, column := 0, index := c.index + bytes })
  match c.rest with
  | '\r' :: '\n' :: rest => next '\n' rest 2
  | '\u2028' :: rest => next '\u2028' rest 3
  | '\u2029' :: rest => next '\u2029' rest 3
  | ch :: rest => next '\n' rest ch.utf8Size
  | [] => ('\n', c)

@[simp, grind =] theorem length_rest_skip (c : Cursor) (count : Nat) :
    (c.skip count).rest.length = c.rest.length - count :=
  List.length_drop

theorem length_rest_pos {c : Cursor} {ch : Char} {after : List Char} (h : c.rest = ch :: after) :
    0 < c.rest.length := by
  simp [h]

theorem length_rest_skipBreak (c : Cursor) :
    c.skipBreak.2.rest.length ≤ c.rest.length - 1 := by
  unfold skipBreak
  split <;> simp_all

/-- Whether the text goes on with three marks at the start of a line and a separator. -/
def atMarker (c : Cursor) (mark : Char) : Bool :=
  c.column == 0 && c.rest.take 3 == [mark, mark, mark] && c.separatorAt 3

/-- Whether a document starts or ends here. -/
def atDocumentMarker (c : Cursor) : Bool :=
  c.atMarker '-' || c.atMarker '.'

end Cursor

end SchemaCodec.Yaml
