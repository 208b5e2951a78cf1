import SchemaCodec.Decimal

/-!
# Finite binary64 numbers

A finite binary64 number is kept as a sign and the *code* of its magnitude: the rank of the
magnitude among the nonnegative binary64 numbers, `0` being zero and `1` the least positive one.
Codes below `2 ^ 52` count units of `2 ^ -1074`; above, every run of `2 ^ 52` codes doubles the
unit. All arithmetic is exact on natural numbers. `nearestCode` rounds a quotient, a half going to
the even code.
-/

namespace SchemaCodec

namespace Binary64

/-- How many codes share a unit. -/
def runLength : Nat := twoTo 52

/-- The first code beyond the finite magnitudes. -/
def codeBound : Nat := 2047 * runLength

/-- How many units make one. -/
def unitsPerOne : Nat := twoTo 1074

end Binary64

/-- A finite binary64 number. -/
structure Binary64 where
  negative : Bool
  code : Nat
  finite : code < Binary64.codeBound
deriving DecidableEq

namespace Binary64

/-- The number zero with the given sign. -/
def zero (negative : Bool) : Binary64 :=
  ⟨negative, 0, by decide⟩

instance : Inhabited Binary64 :=
  ⟨zero false⟩

/-- How many units of `2 ^ -1074` the magnitude with this code has. -/
def units (code : Nat) : Nat :=
  if code < runLength then code
  else (runLength + code % runLength) * twoTo (code / runLength - 1)

/-- `n / d` rounded to the nearest natural number, a half going to the even neighbour. -/
def roundQuotient (n d : Nat) : Nat :=
  let q := n / d
  let r := n % d
  if 2 * r < d then q else if d < 2 * r then q + 1 else q + q % 2

/-- The code of the magnitude nearest to `num / den`. Of the count of units the leading 53 bits are
kept; since each run of codes is as long as the next, a carry out of them lands on the right
code. -/
def nearestCode (num den : Nat) : Nat :=
  let dropped := Nat.log2 (num * unitsPerOne / den) - 52
  dropped * runLength + roundQuotient (num * unitsPerOne) (den * twoTo dropped)

/-- The number with a sign and a code, if that is finite. -/
def ofCode? (negative : Bool) (code : Nat) : Option Binary64 :=
  if h : code < codeBound then some ⟨negative, code, h⟩ else none

/-- The code nearest to a decimal. -/
def decimalCode (d : Decimal) : Nat :=
  if 0 ≤ d.exponent then nearestCode (d.digits * tenTo d.exponent.toNat) 1
  else nearestCode d.digits (tenTo (-d.exponent).toNat)

/-- The number nearest to a decimal, or `none` beyond the finite range. A leading digit above the
place `10 ^ 310` or below `10 ^ -330` settles the answer without computing the power. -/
def ofDecimal? (negative : Bool) (d : Decimal) : Option Binary64 :=
  if d.digits = 0 then some (zero negative)
  else if 310 < d.leading then none
  else if d.leading < -330 then some (zero negative)
  else ofCode? negative (decimalCode d)

/-- The number nearest to an integer, or `none` beyond the finite range. -/
def ofInt? (i : Int) : Option Binary64 :=
  ofCode? (decide (i < 0)) (nearestCode i.natAbs 1)

/-- The same number with the sign of zero forgotten: numerically equal numbers, and only those,
agree here. -/
def unsignedZero (x : Binary64) : Binary64 :=
  if x.code = 0 then zero false else x

end Binary64

end SchemaCodec
