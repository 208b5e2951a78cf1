/-!
# Nonnegative decimals and their notation

A decimal is a natural number scaled by a power of ten. `Decimal.text` writes one in positional or
scientific notation, as a `Decimal.Range` of places decides from the place of the leading digit.
-/

namespace SchemaCodec

/-- The powers of two. -/
def twoTo (n : Nat) : Nat :=
  Nat.pow 2 n

/-- The powers of ten. -/
def tenTo (n : Nat) : Nat :=
  Nat.pow 10 n

/-- How many digits the decimal form of `n` has; `0` has one. -/
def digitCount (n : Nat) : Nat :=
  (Nat.toDigits 10 n).length

/-- The number `digits * 10 ^ exponent`. -/
structure Decimal where
  digits : Nat
  exponent : Int
deriving DecidableEq, Repr

namespace Decimal

/-- The power of ten of the leading digit: `3` for `1234`, `-2` for `0.05`. -/
def leading (d : Decimal) : Int :=
  d.exponent + (digitCount d.digits : Int) - 1

/-- Moves at most `fuel` trailing zeros of `digits` into the exponent. -/
def stripZeros : Nat → Decimal → Decimal
  | 0, d => d
  | fuel + 1, d =>
    if d.digits % 10 = 0 ∧ d.digits ≠ 0 then stripZeros fuel ⟨d.digits / 10, d.exponent + 1⟩ else d

/-- The same number without trailing zeros in its digits. -/
def normalize (d : Decimal) : Decimal :=
  if d.digits = 0 then ⟨0, 0⟩ else stripZeros (digitCount d.digits) d

/-- Where a number is written positionally: when its leading digit stands at a place from `least`
on and below `bound`. A missing end leaves that side open. -/
structure Range where
  least : Option Int
  bound : Option Int

/-- Whether the place lies in the range. -/
def Range.contains (r : Range) (place : Int) : Bool :=
  (r.least.all fun l ↦ decide (l ≤ place)) && (r.bound.all fun b ↦ decide (place < b))

/-- Positional notation with at least one digit on either side of the point. -/
def positional (d : Decimal) : String :=
  let digits := Nat.toDigits 10 d.digits
  let point := d.leading + 1
  if point ≤ 0 then
    String.ofList ('0' :: '.' :: List.replicate (-point).toNat '0' ++ digits)
  else
    let whole := digits.take point.toNat
    let rest := digits.drop point.toNat
    String.ofList (whole ++ List.replicate (point.toNat - digits.length) '0' ++
      '.' :: (if rest.isEmpty then ['0'] else rest))

/-- Scientific notation with a signed exponent and no empty fraction. -/
def scientific (d : Decimal) : String :=
  let power := d.leading
  let sign := if power < 0 then '-' else '+'
  let tail := 'e' :: sign :: Nat.toDigits 10 power.natAbs
  match Nat.toDigits 10 d.digits with
  | [] => String.ofList tail
  | [c] => String.ofList (c :: tail)
  | c :: rest => String.ofList (c :: '.' :: rest ++ tail)

/-- The text of a decimal whose digits have no trailing zeros. -/
def text (r : Range) (d : Decimal) : String :=
  if r.contains d.leading then d.positional else d.scientific

end Decimal

end SchemaCodec
