import SchemaCodec.Json.Basic
import SchemaCodec.Json.Token
import SchemaCodec.Yaml.Cursor

/-!
# YAML scalars

A scalar is a text that was written plain or in quotes. Runs of blanks and line breaks inside it are
folded: blanks at the end of a line vanish, one break becomes a space, and of several breaks the
first vanishes. A quoted scalar is a string; a plain one may also be null, a boolean, an integer or
a float, as its spelling says.
-/

namespace SchemaCodec.Yaml

/-- A scalar as it was written. -/
structure Scalar where
  text : String
  plain : Bool
deriving DecidableEq

/-! ### Folding -/

/-- The blanks and breaks since the last visible character of a scalar. -/
structure Gap where
  /-- Blanks before any break, the last one first. -/
  blanks : List Char := []
  /-- Whether a line has ended. -/
  broken : Bool := false
  /-- The first break, unless it was escaped. -/
  first : List Char := []
  /-- The other breaks, the last one first. -/
  others : List Char := []

namespace Gap

/-- Whether there is a gap at all. -/
def isSome (g : Gap) : Bool :=
  g.broken || !g.blanks.isEmpty

/-- Adds a blank, which counts only before the first break. -/
def addBlank (g : Gap) (c : Char) : Gap :=
  if g.broken then g else { g with blanks := c :: g.blanks }

/-- Adds a line break. -/
def addBreak (g : Gap) (c : Char) : Gap :=
  if g.broken then { g with others := c :: g.others }
  else { broken := true, first := [c] }

/-- What the gap becomes in the scalar. -/
def folded (g : Gap) : List Char :=
  if g.broken then
    if g.first = ['\n'] then if g.others.isEmpty then [' '] else g.others.reverse
    else g.first ++ g.others.reverse
  else g.blanks.reverse

end Gap

/-! ### Plain scalars -/

/-- Characters that end a plain scalar inside brackets. -/
def isFlowIndicator (c : Char) : Bool :=
  c == ',' || c == '[' || c == ']' || c == '\x7b' || c == '\x7d'

/-- Reads a plain scalar; `indent` is the least column at which a further line belongs to it. The
answer holds its characters, the last one first, the place behind it and whether a line ended
there. -/
def scanPlain (flow : Bool) (indent : Nat) (gap : Gap) (acc : List Char) (c : Cursor) :
    Option (List Char × Cursor × Bool) :=
  match h : c.rest with
  | [] => some (acc, c, gap.broken)
  | ch :: after =>
    have := Cursor.length_rest_pos h
    have := c.length_rest_skipBreak
    if isBlank ch then
      if gap.broken && decide (c.column < indent) && ch == '\t' then none
      else scanPlain flow indent (gap.addBlank ch) acc (c.skip 1)
    else if isBreak ch then
      scanPlain flow indent (gap.addBreak c.skipBreak.1) acc c.skipBreak.2
    else if gap.isSome &&
        (!flow && decide (c.column < indent) || c.atDocumentMarker || ch == '#') then
      some (acc, c, gap.broken)
    else if flow && ch == ':' && after.head?.any fun n ↦ isFlowIndicator n || n == '?' then none
    else if ch == ':' && c.separatorAt 1 || flow && isFlowIndicator ch then
      some (acc, c, gap.broken)
    else scanPlain flow indent {} (ch :: gap.folded.reverse ++ acc) (c.skip 1)
termination_by c.rest.length
decreasing_by all_goals grind

/-! ### Quoted scalars -/

/-- The number that hexadecimal digits spell. -/
def hexNumber? (cs : List Char) : Option Nat :=
  cs.foldlM (fun n c ↦ (Json.Token.hexValue? c).map (n * 16 + ·)) 0

/-- The character that an escape stands for, and how many characters follow the backslash in it. -/
def escape? : List Char → Option (Char × Nat)
  | [] => none
  | '0' :: _ => some ('\x00', 1)
  | 'a' :: _ => some ('\x07', 1)
  | 'b' :: _ => some ('\x08', 1)
  | 't' :: _ => some ('\t', 1)
  | '\t' :: _ => some ('\t', 1)
  | 'n' :: _ => some ('\n', 1)
  | 'v' :: _ => some ('\x0b', 1)
  | 'f' :: _ => some ('\x0c', 1)
  | 'r' :: _ => some ('\r', 1)
  | 'e' :: _ => some ('\x1b', 1)
  | ' ' :: _ => some (' ', 1)
  | '"' :: _ => some ('"', 1)
  | '/' :: _ => some ('/', 1)
  | '\\' :: _ => some ('\\', 1)
  | 'N' :: _ => some ('\u0085', 1)
  | '_' :: _ => some ('\u00a0', 1)
  | 'L' :: _ => some ('\u2028', 1)
  | 'P' :: _ => some ('\u2029', 1)
  | 'x' :: rest => coded 2 rest
  | 'u' :: rest => coded 4 rest
  | 'U' :: rest => coded 8 rest
  | _ :: _ => none
where
  /-- A character by its code point in a fixed number of digits. -/
  coded (count : Nat) (rest : List Char) : Option (Char × Nat) :=
    let digits := rest.take count
    if digits.length = count then
      (hexNumber? digits).bind fun n ↦
        if 0xD800 ≤ n ∧ n < 0xE000 ∨ 0x110000 ≤ n then none else some (Char.ofNat n, count + 1)
    else none

/-- Reads a quoted scalar behind its opening quote: its characters, the last one first, and the
place behind the closing quote. -/
def scanQuoted (double : Bool) (gap : Gap) (acc : List Char) (c : Cursor) :
    Option (List Char × Cursor) :=
  match h : c.rest with
  | [] => none
  | ch :: after =>
    have := Cursor.length_rest_pos h
    have := c.length_rest_skipBreak
    have := (c.skip 1).length_rest_skipBreak
    if isBlank ch then scanQuoted double (gap.addBlank ch) acc (c.skip 1)
    else if isBreak ch then scanQuoted double (gap.addBreak c.skipBreak.1) acc c.skipBreak.2
    else if c.atDocumentMarker then none
    else
      let acc := gap.folded.reverse ++ acc
      if double then
        if ch == '"' then some (acc, c.skip 1)
        else if ch == '\\' then
          if after.head?.any isBreak then
            scanQuoted double { broken := true } acc (c.skip 1).skipBreak.2
          else
            match escape? after with
            | none => none
            | some (e, count) => scanQuoted double {} (e :: acc) (c.skip (count + 1))
        else scanQuoted double {} (ch :: acc) (c.skip 1)
      else if ch == '\'' then
        if after.head? == some '\'' then scanQuoted double {} ('\'' :: acc) (c.skip 2)
        else some (acc, c.skip 1)
      else scanQuoted double {} (ch :: acc) (c.skip 1)
termination_by c.rest.length
decreasing_by all_goals grind

/-! ### Meaning -/

/-- What a scalar stands for. -/
inductive Meaning where
  | null
  | bool (value : Bool)
  | integer (value : Int)
  | float (value : Binary64)
  /-- A float that is infinite or not a number. -/
  | nonFinite (text : String)
  | string (value : String)

/-- The number that digits of a base up to 16 spell. -/
def radixNumber? (base : Nat) (cs : List Char) : Option Nat :=
  if cs.isEmpty then none
  else
    cs.foldlM (fun n c ↦
      (Json.Token.hexValue? c).bind fun d ↦ if d < base then some (n * base + d) else none) 0

/-- The base that a marked spelling has, and its digits. -/
def basePrefix : List Char → Option (Nat × List Char)
  | '0' :: 'x' :: digits => some (16, digits)
  | '0' :: 'o' :: digits => some (8, digits)
  | '0' :: 'b' :: digits => some (2, digits)
  | _ => none

/-- The natural number that an unsigned spelling stands for. -/
def natural? (cs : List Char) : Option Nat :=
  match basePrefix cs with
  | some (base, digits) => radixNumber? base digits
  | none => radixNumber? 10 cs

/-- Drops one leading sign. -/
def unsigned : List Char → List Char
  | '-' :: rest => rest
  | '+' :: rest => rest
  | cs => cs

/-- Digits behind a leading zero, which make a spelling a string. -/
def isZeroPadded (cs : List Char) : Bool :=
  match unsigned cs with
  | '0' :: d :: rest => (d :: rest).all Json.Token.isDigit
  | _ => false

/-- Integers of 128 bits, with or without a sign. -/
def isWide (i : Int) : Bool :=
  decide (-(twoTo 127 : Int) ≤ i ∧ i < twoTo 128)

/-- The integer that a spelling stands for, if 128 bits can hold it. -/
def integer? (cs : List Char) : Option Int :=
  if isZeroPadded cs then none
  else
    let signed : Option Int :=
      match cs with
      | '-' :: rest => (natural? rest).map fun n ↦ -(n : Int)
      | '+' :: rest => (natural? rest).map fun n ↦ (n : Int)
      | _ => (natural? cs).map fun n ↦ (n : Int)
    signed.filter isWide

/-- The decimal that an unsigned spelling with at least one digit stands for. -/
def decimal? (cs : List Char) : Option Decimal := do
  let (whole, cs) := Json.Token.spanDigits cs
  let (fraction, cs) := match cs with
    | '.' :: rest => Json.Token.spanDigits rest
    | _ => ([], cs)
  if whole.isEmpty && fraction.isEmpty then none
  let (exponent, cs) ← Json.Token.exponentPart cs
  if cs.isEmpty then
    return ⟨Json.Token.digitsValue (whole ++ fraction), exponent.getD 0 - (fraction.length : Int)⟩
  else none

/-- The finite float that a spelling stands for. -/
def float? (cs : List Char) : Option Binary64 :=
  if isZeroPadded cs then none
  else
    match cs with
    | '-' :: rest => (decimal? rest).bind (Binary64.ofDecimal? true)
    | '+' :: rest => (decimal? rest).bind (Binary64.ofDecimal? false)
    | _ => (decimal? cs).bind (Binary64.ofDecimal? false)

/-- The text of a float without a finite value. -/
def nonFinite? (s : String) : Option String :=
  if [".inf", ".Inf", ".INF", "+.inf", "+.Inf", "+.INF"].contains s then some "inf"
  else if ["-.inf", "-.Inf", "-.INF"].contains s then some "-inf"
  else if [".nan", ".NaN", ".NAN"].contains s then some "NaN"
  else none

namespace Scalar

/-- Whether the scalar is a plain one without any character. -/
def isEmpty (s : Scalar) : Bool :=
  s.plain && s.text.isEmpty

/-- The meaning of a scalar. -/
def meaning (s : Scalar) : Meaning :=
  if !s.plain then .string s.text
  else if s.text.isEmpty || ["~", "null", "Null", "NULL"].contains s.text then .null
  else if ["true", "True", "TRUE"].contains s.text then .bool true
  else if ["false", "False", "FALSE"].contains s.text then .bool false
  else
    match integer? s.text.toList with
    | some i => .integer i
    | none =>
      match nonFinite? s.text with
      | some text => .nonFinite text
      | none =>
        match float? s.text.toList with
        | some x => .float x
        | none => .string s.text

end Scalar

end SchemaCodec.Yaml
