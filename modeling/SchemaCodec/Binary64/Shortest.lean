import SchemaCodec.Binary64.Basic

/-!
# The shortest decimal that reads back

`shortest tie code` is a decimal with the fewest digits that rounds to the given code; among those
it is the one nearest to the exact value, and `tie` decides between two that are equally near. For a
number of digits only the two neighbours of the value on that decimal grid need trying.
-/

namespace SchemaCodec.Binary64

/-- Which of two equally near decimals is taken: the one with the even last digit, or the greater
one. -/
inductive Tie where
  | even
  | up
deriving DecidableEq

/-- How numbers are written: where positionally, and how ties are broken. -/
structure Style where
  positional : Decimal.Range
  tie : Tie

/-- The power of ten of the leading digit of a nonzero magnitude. -/
def leadingPlace (code : Nat) : Int :=
  let n := units code
  if unitsPerOne ≤ n then (digitCount (n / unitsPerOne) : Int) - 1
  else -(digitCount ((unitsPerOne - 1) / n) : Int)

/-- Whether `n / d` is taken to be nearer to its floor than to the next natural number. -/
def Tie.prefersFloor (tie : Tie) (n d : Nat) : Bool :=
  if 2 * (n % d) = d then
    match tie with
    | .even => n / d % 2 == 0
    | .up => false
  else decide (2 * (n % d) < d)

/-- The two neighbours of the magnitude among the multiples of `10 ^ exponent`, the nearer first. -/
def neighbours (tie : Tie) (code : Nat) (exponent : Int) : List Decimal :=
  let n := units code * tenTo (-exponent).toNat
  let d := unitsPerOne * tenTo exponent.toNat
  let below : Decimal := ⟨n / d, exponent⟩
  let above : Decimal := ⟨n / d + 1, exponent⟩
  if tie.prefersFloor n d then [below, above] else [above, below]

/-- The exact value of `k / 2 ^ n`, as a decimal. -/
def dyadic (k n : Nat) : Decimal :=
  ⟨k * Nat.pow 5 n, -n⟩

/-- The exact value of a magnitude, as a decimal. -/
def exact (code : Nat) : Decimal :=
  dyadic (units code) 1074

/-- The shortest decimal that reads back as the magnitude with this code; 17 digits always do. -/
def shortest (tie : Tie) (code : Nat) : Decimal :=
  if code = 0 then ⟨0, 0⟩
  else
    let found := (List.range 17).findSome? fun k : Nat ↦
      (neighbours tie code (leadingPlace code - (k : Int))).find? fun d ↦ decimalCode d == code
    (found.getD (exact code)).normalize

/-- The text of a number in a style, with the sign of zero kept. -/
def text (style : Style) (x : Binary64) : String :=
  (if x.negative then "-" else "") ++ (shortest style.tie x.code).text style.positional

end SchemaCodec.Binary64
