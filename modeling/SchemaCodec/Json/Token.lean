import SchemaCodec.Reading
import SchemaCodec.Json.Basic

/-!
# JSON tokens

`Token.scan` splits a text into punctuation and scalars. Blanks are space, tab, line feed and
carriage return. A string may not hold raw control characters, and an escaped surrogate must be half
of a pair. A number without fraction and exponent stays an integer if it fits 64 bits, unsigned when
positive and signed when negative; every other number becomes the nearest binary64, and one beyond
the finite range is a fault, as is a leading zero.
-/

namespace SchemaCodec.Json

/-- A lexical item of a JSON text. -/
inductive Token where
  | openArray
  | closeArray
  | openObject
  | closeObject
  | comma
  | colon
  | scalar (value : Scalar)
deriving DecidableEq

namespace Token

/-- Blanks between tokens. -/
def isBlank (c : Char) : Bool :=
  c == ' ' || c == '\t' || c == '\n' || c == '\r'

/-! ### Strings -/

/-- The value of a hexadecimal digit in either case. -/
def hexValue? (c : Char) : Option Nat :=
  if '0' ≤ c ∧ c ≤ '9' then some (c.toNat - '0'.toNat)
  else if 'a' ≤ c ∧ c ≤ 'f' then some (c.toNat - 'a'.toNat + 10)
  else if 'A' ≤ c ∧ c ≤ 'F' then some (c.toNat - 'A'.toNat + 10)
  else none

/-- The number that four hexadecimal digits spell. -/
def hex4? (a b c d : Char) : Option Nat := do
  return (((← hexValue? a) * 16 + (← hexValue? b)) * 16 + (← hexValue? c)) * 16 + (← hexValue? d)

/-- The character of an escape with one letter. -/
def shortEscape? (c : Char) : Option Char :=
  match c with
  | '"' => some '"'
  | '\\' => some '\\'
  | '/' => some '/'
  | 'b' => some '\x08'
  | 'f' => some '\x0c'
  | 'n' => some '\n'
  | 'r' => some '\r'
  | 't' => some '\t'
  | _ => none

/-- Whether a code unit is the first half of a surrogate pair. -/
def isHighSurrogate (n : Nat) : Bool :=
  decide (0xD800 ≤ n ∧ n < 0xDC00)

/-- Whether a code unit is the second half of a surrogate pair. -/
def isLowSurrogate (n : Nat) : Bool :=
  decide (0xDC00 ≤ n ∧ n < 0xE000)

/-- The rest of a string literal behind its opening quote: its characters and what follows the
closing quote. -/
def stringBody : List Char → Option (List Char × List Char)
  | [] => none
  | '"' :: rest => some ([], rest)
  | '\\' :: 'u' :: a :: b :: c :: d :: rest =>
    match hex4? a b c d with
    | none => none
    | some unit =>
      if isHighSurrogate unit then
        match rest with
        | '\\' :: 'u' :: e :: f :: g :: h :: rest' =>
          match hex4? e f g h with
          | none => none
          | some low =>
            if isLowSurrogate low then
              (stringBody rest').map fun p ↦
                (Char.ofNat (0x10000 + (unit - 0xD800) * 0x400 + (low - 0xDC00)) :: p.1, p.2)
            else none
        | _ => none
      else if isLowSurrogate unit then none
      else (stringBody rest).map fun p ↦ (Char.ofNat unit :: p.1, p.2)
  | '\\' :: c :: rest =>
    match shortEscape? c with
    | none => none
    | some e => (stringBody rest).map fun p ↦ (e :: p.1, p.2)
  | c :: rest =>
    if c.toNat < 0x20 ∨ c = '\\' then none else (stringBody rest).map fun p ↦ (c :: p.1, p.2)

/-! ### Numbers -/

/-- Decimal digits. -/
def isDigit (c : Char) : Bool :=
  decide ('0' ≤ c ∧ c ≤ '9')

/-- The number that decimal digits spell. -/
def digitsValue (cs : List Char) : Nat :=
  cs.foldl (fun n c ↦ n * 10 + (c.toNat - '0'.toNat)) 0

/-- A number without fraction and exponent. -/
def integerNumber? (negative : Bool) (n : Nat) : Option Number :=
  if negative then
    if n = 0 then some (.binary (Binary64.zero true))
    else if n ≤ twoTo 63 then some (.integer (-(n : Int)))
    else (Binary64.ofDecimal? true ⟨n, 0⟩).map .binary
  else if n < twoTo 64 then some (.integer n)
  else (Binary64.ofDecimal? false ⟨n, 0⟩).map .binary

/-- Splits off the digits at the front. -/
def spanDigits (cs : List Char) : List Char × List Char :=
  (cs.takeWhile isDigit, cs.dropWhile isDigit)

/-- An optional sign, `true` standing for minus. -/
def signPart : List Char → Bool × List Char
  | '-' :: rest => (true, rest)
  | '+' :: rest => (false, rest)
  | cs => (false, cs)

/-- The exponent part of a number, if one starts here: `none` for a fault. -/
def exponentPart (cs : List Char) : Option (Option Int × List Char) :=
  match cs with
  | e :: rest =>
    if e = 'e' ∨ e = 'E' then
      let signed := signPart rest
      let digits := (spanDigits signed.2).1
      let n : Int := digitsValue digits
      if digits.isEmpty then none
      else some (some (if signed.1 then -n else n), (spanDigits signed.2).2)
    else some (none, cs)
  | [] => some (none, cs)

/-- The fraction digits of a number, if a point starts here: `none` for a fault. -/
def fractionPart (cs : List Char) : Option (Option (List Char) × List Char) :=
  match cs with
  | '.' :: rest =>
    let (digits, rest) := spanDigits rest
    if digits.isEmpty then none else some (some digits, rest)
  | _ => some (none, cs)

/-- The whole part of a number: one zero, or digits that start with another one. -/
def wholePart (cs : List Char) : Option (List Char × List Char) :=
  let (digits, rest) := spanDigits cs
  match digits with
  | [] => none
  | '0' :: _ :: _ => none
  | _ => some (digits, rest)

/-- An unsigned number at the front of a text, and what follows it. -/
def unsignedNumber (negative : Bool) (cs : List Char) : Option (Number × List Char) := do
  let (whole, cs) ← wholePart cs
  let (fraction, cs) ← fractionPart cs
  let (exponent, cs) ← exponentPart cs
  match fraction, exponent with
  | none, none => return (← integerNumber? negative (digitsValue whole), cs)
  | _, _ =>
    let fraction := fraction.getD []
    let decimal : Decimal :=
      ⟨digitsValue (whole ++ fraction), exponent.getD 0 - (fraction.length : Int)⟩
    return (.binary (← Binary64.ofDecimal? negative decimal), cs)

/-! ### The scanner -/

/-- Drops `word` from the front of a text. -/
def afterWord : List Char → List Char → Option (List Char)
  | [], cs => some cs
  | _ :: _, [] => none
  | w :: word, c :: cs => if w = c then afterWord word cs else none

/-- The token that starts with `c`, and the text behind it. -/
def first? (c : Char) (rest : List Char) : Option (Token × List Char) :=
  match c with
  | '[' => some (openArray, rest)
  | ']' => some (closeArray, rest)
  | '\x7b' => some (openObject, rest)
  | '\x7d' => some (closeObject, rest)
  | ',' => some (comma, rest)
  | ':' => some (colon, rest)
  | '"' => (stringBody rest).map fun p ↦ (scalar (.string (String.ofList p.1)), p.2)
  | 't' => (afterWord ['r', 'u', 'e'] rest).map fun r ↦ (scalar (.bool true), r)
  | 'f' => (afterWord ['a', 'l', 's', 'e'] rest).map fun r ↦ (scalar (.bool false), r)
  | 'n' => (afterWord ['u', 'l', 'l'] rest).map fun r ↦ (scalar .null, r)
  | '-' => (unsignedNumber true rest).map fun p ↦ (scalar (.number p.1), p.2)
  | c =>
    if isDigit c then (unsignedNumber false (c :: rest)).map fun p ↦ (scalar (.number p.1), p.2)
    else none

/-! Every token takes at least one character, which bounds the scan. -/

theorem length_stringBody {cs body rest : List Char} (h : stringBody cs = some (body, rest)) :
    rest.length ≤ cs.length := by
  fun_induction stringBody cs generalizing body rest
  all_goals try simp only [Option.map_eq_some_iff, Prod.exists, Prod.mk.injEq] at h
  all_goals try simp only [List.length_cons]
  all_goals grind

theorem length_dropWhile_le (p : Char → Bool) (cs : List Char) :
    (cs.dropWhile p).length ≤ cs.length :=
  (List.dropWhile_suffix p).sublist.length_le

theorem length_afterWord {word cs rest : List Char} (h : afterWord word cs = some rest) :
    rest.length ≤ cs.length := by
  fun_induction afterWord word cs generalizing rest <;> grind

theorem length_wholePart {cs digits rest : List Char} (h : wholePart cs = some (digits, rest)) :
    rest.length < cs.length := by
  have hlen : (cs.takeWhile isDigit).length + (cs.dropWhile isDigit).length = cs.length := by
    rw [← List.length_append, List.takeWhile_append_dropWhile]
  simp only [wholePart, spanDigits] at h
  split at h
  · simp at h
  · simp at h
  · next hne _ =>
    simp only [Option.some.injEq, Prod.mk.injEq] at h
    obtain ⟨-, rfl⟩ := h
    have : 0 < (cs.takeWhile isDigit).length := List.length_pos_iff.2 hne
    omega

theorem length_fractionPart {cs rest : List Char} {digits : Option (List Char)}
    (h : fractionPart cs = some (digits, rest)) : rest.length ≤ cs.length := by
  unfold fractionPart at h
  split at h
  · next tail =>
    have := length_dropWhile_le isDigit tail
    grind [spanDigits]
  · grind

theorem length_signPart (cs : List Char) : (signPart cs).2.length ≤ cs.length := by
  unfold signPart
  split <;> simp

theorem length_exponentPart {cs rest : List Char} {exponent : Option Int}
    (h : exponentPart cs = some (exponent, rest)) : rest.length ≤ cs.length := by
  unfold exponentPart at h
  split at h
  · next e tail =>
    have := length_signPart tail
    have := length_dropWhile_le isDigit (signPart tail).2
    grind [spanDigits]
  · grind

theorem length_unsignedNumber {negative : Bool} {cs rest : List Char} {n : Number}
    (h : unsignedNumber negative cs = some (n, rest)) : rest.length < cs.length := by
  simp only [unsignedNumber, Option.bind_eq_bind, Option.bind_eq_some_iff] at h
  obtain ⟨⟨whole, cs₁⟩, h₁, ⟨fraction, cs₂⟩, h₂, ⟨exponent, cs₃⟩, h₃, h⟩ := h
  have := length_wholePart h₁
  have := length_fractionPart h₂
  have := length_exponentPart h₃
  split at h <;> simp only [Option.bind_eq_some_iff, Option.pure_def, Option.some.injEq, Prod.mk.injEq] at h
  all_goals grind

theorem length_first? {c : Char} {cs rest : List Char} {t : Token}
    (h : first? c cs = some (t, rest)) : rest.length ≤ cs.length := by
  unfold first? at h
  split at h <;> try simp only [Option.map_eq_some_iff, Prod.mk.injEq, Option.some.injEq] at h
  all_goals
    first
    | omega
    | (obtain ⟨-, rfl⟩ := h; exact Nat.le_refl _)
    | (obtain ⟨p, hp, -, rfl⟩ := h
       first
       | exact length_stringBody hp
       | exact length_afterWord hp
       | exact Nat.le_of_lt (length_unsignedNumber hp))
    | (split at h
       · simp only [Option.map_eq_some_iff, Prod.mk.injEq] at h
         obtain ⟨p, hp, -, rfl⟩ := h
         have := length_unsignedNumber hp
         simp only [List.length_cons] at this
         omega
       · simp at h)

/-- The tokens of a text, up to the first fault. -/
def scan (cs : List Char) : Reading Token :=
  match cs with
  | [] => .done
  | c :: rest =>
    if isBlank c then scan rest
    else
      match h : first? c rest with
      | none => .fault
      | some (t, rest') =>
        have := length_first? h
        (scan rest').cons t
termination_by cs.length

end Token

end SchemaCodec.Json
