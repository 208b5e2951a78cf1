import SchemaCodec.Reading
import SchemaCodec.Yaml.Scalar

/-!
# YAML tokens

`Token.scan` splits a text into marks and scalars. Indentation becomes tokens of its own: a block
collection starts where its first entry or key stands further right than everything open, and ends
where a line starts further left. Whether a scalar is a key shows only at the colon behind it, so
each level remembers the token that may turn out to be one; that holds for the rest of its line and
for 1024 bytes at most. Where a line stands at the column of an open block mapping, what starts
there has to be a key.

On a fault, the tokens from a possible key on are withheld, since their role is still open.

This is a part of YAML, the collections and the scalars that are written plain or in quotes. Block
scalars, anchors, aliases, tags, explicit keys and directives are faults here.
-/

namespace SchemaCodec.Yaml

/-- A lexical item of a YAML text. -/
inductive Token where
  | documentStart
  | documentEnd
  | blockListStart
  | blockMapStart
  | blockEnd
  | listOpen
  | listClose
  | mapOpen
  | mapClose
  /-- The dash of a block list. -/
  | entry
  | comma
  /-- Stands before a key. -/
  | key
  /-- Stands before a value. -/
  | value
  | scalar (s : Scalar)
  | finish
deriving DecidableEq

/-- A token that may turn out to be a key. -/
structure Candidate where
  /-- Its position among the tokens. -/
  position : Nat
  line : Nat
  column : Nat
  index : Nat
  /-- Whether nothing but a key may stand there. -/
  required : Bool

/-- The state of the scan. -/
structure Scanner where
  cursor : Cursor
  /-- The tokens so far, the last one first. -/
  reversed : List Token := []
  /-- How many tokens there are. -/
  count : Nat := 0
  /-- The columns of the open block collections, innermost first. -/
  indents : List Nat := []
  /-- The candidate outside all brackets. -/
  outer : Option Candidate := none
  /-- The candidate of every open bracket, innermost first. -/
  inner : List (Option Candidate) := []
  /-- Whether a key may start here. -/
  keyAllowed : Bool := true
  /-- Whether the end of the text has been delivered. -/
  ended : Bool := false

namespace Scanner

/-- The tokens so far. -/
def tokens (s : Scanner) : List Token :=
  s.reversed.reverse

/-- Whether the place is inside brackets. -/
def inFlow (s : Scanner) : Bool :=
  !s.inner.isEmpty

/-- Appends a token. -/
def push (s : Scanner) (t : Token) : Scanner :=
  { s with reversed := t :: s.reversed, count := s.count + 1 }

/-- Inserts a token at a position. -/
def insertAt (s : Scanner) (position : Nat) (t : Token) : Scanner :=
  { s with
    reversed := s.reversed.insertIdx (s.count - position) t
    count := s.count + 1 }

/-- The candidate of the innermost level. -/
def candidate? (s : Scanner) : Option Candidate :=
  match s.inner with
  | [] => s.outer
  | c :: _ => c

/-- Replaces the candidate of the innermost level. -/
def setCandidate (s : Scanner) (c : Option Candidate) : Scanner :=
  match s.inner with
  | [] => { s with outer := c }
  | _ :: rest => { s with inner := c :: rest }

/-- Whether a candidate is near enough to be a key still. -/
def isFresh (s : Scanner) (c : Candidate) : Bool :=
  decide (s.cursor.line ≤ c.line ∧ s.cursor.index ≤ c.index + 1024)

/-- Gives up the innermost candidate; a fault if it has to be a key. -/
def dropCandidate (s : Scanner) : Option Scanner :=
  match s.candidate? with
  | some c => if c.required then none else some (s.setCandidate none)
  | none => some s

/-- Gives up the candidates that are too far back; a fault if one of them has to be a key, which
only the outermost can. Those of enclosing brackets are left until their level is the innermost
one. -/
def dropStale (s : Scanner) : Option Scanner :=
  if s.outer.any fun c ↦ c.required && !s.isFresh c then none
  else
    let s := { s with outer := s.outer.filter s.isFresh }
    some (s.setCandidate (s.candidate?.filter s.isFresh))

/-- Notes that the token about to be pushed may be a key. -/
def offerCandidate (s : Scanner) : Option Scanner :=
  if s.keyAllowed then do
    let s ← s.dropCandidate
    let c := s.cursor
    let required := !s.inFlow && s.indents.head? == some c.column
    some (s.setCandidate (some ⟨s.count, c.line, c.column, c.index, required⟩))
  else some s

/-- How many tokens stand before the first one that may be a key. -/
def settled (s : Scanner) : Nat :=
  (s.outer :: s.inner).foldl (fun n c ↦
    match c with
    | some c => if s.isFresh c then min n c.position else n
    | none => n) s.count

/-- Starts a block collection at a column that lies further right than everything open. -/
def indentTo (s : Scanner) (column position : Nat) (t : Token) : Scanner :=
  if s.inFlow then s
  else if s.indents.head?.all fun i ↦ decide (i < column) then
    { s.insertAt position t with indents := column :: s.indents }
  else s

/-- Ends the block collections that lie further right than a column; all of them for `none`. -/
def unindentTo (s : Scanner) (column : Option Nat) : Scanner :=
  if s.inFlow then s
  else
    let isOpen (i : Nat) : Bool := column.all fun c ↦ decide (c < i)
    let ended := s.indents.takeWhile isOpen
    { s with
      reversed := ended.map (fun _ ↦ Token.blockEnd) ++ s.reversed
      count := s.count + ended.length
      indents := s.indents.dropWhile isOpen }

/-- Moves to the next token, over blanks, comments and line breaks; a byte order mark may start a
line. -/
def toNextToken (s : Scanner) : Scanner :=
  match h : s.cursor.rest with
  | [] => s
  | ch :: after =>
    have := Cursor.length_rest_pos h
    have := s.cursor.length_rest_skipBreak
    if ch == ' ' || (ch == '\t' && (s.inFlow || !s.keyAllowed)) ||
        (ch == '\ufeff' && s.cursor.column == 0) then
      toNextToken { s with cursor := s.cursor.skip 1 }
    else if ch == '#' then
      let comment := (after.takeWhile fun x ↦ !isBreak x).length
      toNextToken { s with cursor := s.cursor.skip (comment + 1) }
    else if isBreak ch then
      toNextToken
        { s with cursor := s.cursor.skipBreak.2, keyAllowed := s.keyAllowed || !s.inFlow }
    else s
termination_by s.cursor.rest.length
decreasing_by all_goals grind

/-! ### The tokens one by one -/

/-- The end of the text. -/
def fetchEnd (s : Scanner) : Option Scanner := do
  let c := s.cursor
  let c := if c.column = 0 then c else { c with line := c.line + 1, column := 0 }
  let s ← ({ s with cursor := c }.unindentTo none).dropCandidate
  return { s.push .finish with keyAllowed := false, ended := true }

/-- A marker of three characters at the start of a line. -/
def fetchMarker (s : Scanner) (t : Token) : Option Scanner := do
  let s ← (s.unindentTo none).dropCandidate
  return { s.push t with keyAllowed := false, cursor := s.cursor.skip 3 }

/-- An opening bracket. -/
def fetchOpen (s : Scanner) (t : Token) : Option Scanner := do
  let s ← s.offerCandidate
  return { s.push t with
    inner := none :: s.inner, keyAllowed := true, cursor := s.cursor.skip 1 }

/-- A closing bracket. -/
def fetchClose (s : Scanner) (t : Token) : Option Scanner := do
  let s ← s.dropCandidate
  return { s.push t with
    inner := s.inner.tail
    keyAllowed := false
    cursor := s.cursor.skip 1 }

/-- A comma between brackets. -/
def fetchComma (s : Scanner) : Option Scanner := do
  let s ← s.dropCandidate
  return { s.push .comma with keyAllowed := true, cursor := s.cursor.skip 1 }

/-- The dash of a block list. -/
def fetchEntry (s : Scanner) : Option Scanner := do
  if !s.inFlow && !s.keyAllowed then none
  let s ← (s.indentTo s.cursor.column s.count .blockListStart).dropCandidate
  return { s.push .entry with keyAllowed := true, cursor := s.cursor.skip 1 }

/-- A colon: it makes the innermost candidate a key. -/
def fetchValue (s : Scanner) : Option Scanner :=
  match s.candidate? with
  | some c =>
    let s := (s.insertAt c.position .key).indentTo c.column c.position .blockMapStart
    some { (s.setCandidate none).push .value with
      keyAllowed := false, cursor := s.cursor.skip 1 }
  | none =>
    if !s.inFlow && !s.keyAllowed then none
    else
      let s := s.indentTo s.cursor.column s.count .blockMapStart
      some { s.push .value with keyAllowed := !s.inFlow, cursor := s.cursor.skip 1 }

/-- A scalar in quotes. -/
def fetchQuoted (s : Scanner) (double : Bool) : Option Scanner := do
  let s ← s.offerCandidate
  let (text, c) ← scanQuoted double {} [] (s.cursor.skip 1)
  return { s.push (.scalar ⟨String.ofList text.reverse, false⟩) with
    keyAllowed := false, cursor := c }

/-- A plain scalar. -/
def fetchPlain (s : Scanner) : Option Scanner := do
  let s ← s.offerCandidate
  let indent := (s.indents.head?.map (· + 1)).getD 0
  let (text, c, broken) ← scanPlain s.inFlow indent {} [] s.cursor
  return { s.push (.scalar ⟨String.ofList text.reverse, true⟩) with
    keyAllowed := broken, cursor := c }

/-- Characters with a role of their own, which cannot start a plain scalar. -/
def isIndicator (c : Char) : Bool :=
  ['-', '?', ':', ',', '[', ']', '\x7b', '\x7d', '#', '&', '*', '!', '|', '>', '\'', '"', '%', '@',
    '\x60'].contains c

/-- Whether a plain scalar starts with `ch` here. -/
def startsPlain (s : Scanner) (ch : Char) : Bool :=
  !(isBlank ch || isBreak ch || isIndicator ch) ||
    (ch == '-' && !s.cursor.separatorAt 1) ||
    (!s.inFlow && (ch == '?' || ch == ':') && !s.cursor.separatorAt 1)

/-- Delivers the next token, together with the block tokens that its place calls for. -/
def fetch (s : Scanner) : Option Scanner := do
  let s ← s.toNextToken.dropStale
  let c := s.cursor
  let s := s.unindentTo (some c.column)
  match c.peek? with
  | none => s.fetchEnd
  | some ch =>
    if c.atMarker '-' then s.fetchMarker .documentStart
    else if c.atMarker '.' then s.fetchMarker .documentEnd
    else if ch == '[' then s.fetchOpen .listOpen
    else if ch == '\x7b' then s.fetchOpen .mapOpen
    else if ch == ']' then s.fetchClose .listClose
    else if ch == '\x7d' then s.fetchClose .mapClose
    else if ch == ',' then s.fetchComma
    else if ch == '-' && c.separatorAt 1 then s.fetchEntry
    else if ch == ':' && (s.inFlow || c.separatorAt 1) then s.fetchValue
    else if ch == '\'' then s.fetchQuoted false
    else if ch == '"' then s.fetchQuoted true
    else if s.startsPlain ch then s.fetchPlain
    else none

/-- Delivers tokens to the end; what was settled in the state `before` is beyond doubt. -/
def run : Nat → Scanner → Scanner → Reading Token
  | 0, before, s => ⟨s.tokens.take before.settled, false⟩
  | fuel + 1, before, s =>
    match s.dropStale with
    | none => ⟨s.tokens.take before.settled, false⟩
    | some s =>
      if s.ended then ⟨s.tokens, true⟩
      else
        match s.fetch with
        | none => ⟨s.tokens.take s.settled, false⟩
        | some next => run fuel s next

end Scanner

/-- The tokens of a text, up to the first fault. A character that no text may hold spoils it all. -/
def Token.scan (text : String) : Reading Token :=
  let chars := text.toList
  let start : Scanner := { cursor := { rest := chars } }
  if chars.all isAllowed then Scanner.run (chars.length + 3) start start else .fault

end SchemaCodec.Yaml
