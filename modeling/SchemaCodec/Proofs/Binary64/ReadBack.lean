import Mathlib.Algebra.Order.Field.Rat
import Mathlib.Algebra.Order.Field.Power
import Mathlib.Tactic.FieldSimp
import Mathlib.Tactic.Ring
import SchemaCodec.Binary64.Shortest

/-!
# Shortest decimals read back

Rounding a quotient to a code depends on the quotient only (`nearestCode_congr`), so the code of a
decimal is a function of the number it stands for (`decimalCode_congr`); and a magnitude that has a
code is rounded to that code (`nearestCode_units`). Hence whatever the search for a shortest decimal
comes up with, be it a candidate that was tested or the exact value, it rounds to the code that it
was made from (`decimalCode_shortest`).
-/

namespace SchemaCodec

namespace Decimal

/-- The number that a decimal stands for. -/
def value (d : Decimal) : ℚ :=
  d.digits * (10 : ℚ) ^ d.exponent

/-- Stripping zeros moves them into the exponent. -/
theorem value_stripZeros (fuel : ℕ) (d : Decimal) : (stripZeros fuel d).value = d.value := by
  induction fuel generalizing d with
  | zero => rfl
  | succ fuel ih =>
    rw [stripZeros]
    split
    · next h =>
      rw [ih, value, value, zpow_add₀ (by norm_num), zpow_one]
      have hdigits : (d.digits : ℚ) = (d.digits / 10 : ℕ) * 10 := by
        have : d.digits = d.digits / 10 * 10 := by omega
        exact_mod_cast this
      rw [hdigits]
      ring
    · rfl

/-- Normalizing keeps the number. -/
theorem value_normalize (d : Decimal) : d.normalize.value = d.value := by
  rw [normalize]
  split
  · next h => simp [value, h]
  · exact value_stripZeros _ d

end Decimal

namespace Binary64

theorem twoTo_pos (n : ℕ) : 0 < twoTo n :=
  Nat.pow_pos (by decide)

theorem tenTo_pos (n : ℕ) : 0 < tenTo n :=
  Nat.pow_pos (by decide)

/-! ### Rounding depends on the quotient -/

/-- A common factor does not change the rounding: quotient, remainder and both comparisons scale. -/
theorem roundQuotient_mul_left {k n d : ℕ} (hk : 0 < k) :
    roundQuotient (k * n) (k * d) = roundQuotient n d := by
  have hdiv : k * n / (k * d) = n / d := Nat.mul_div_mul_left n d hk
  have hmod : k * n % (k * d) = k * (n % d) := Nat.mul_mod_mul_left k n d
  have hlt : 2 * (k * (n % d)) < k * d ↔ 2 * (n % d) < d := by
    rw [Nat.mul_left_comm]
    exact Nat.mul_lt_mul_left hk
  have hgt : k * d < 2 * (k * (n % d)) ↔ d < 2 * (n % d) := by
    rw [Nat.mul_left_comm]
    exact Nat.mul_lt_mul_left hk
  simp only [roundQuotient, hdiv, hmod, hlt, hgt]

/-- A common factor does not change the nearest code. -/
theorem nearestCode_mul_left {k num den : ℕ} (hk : 0 < k) :
    nearestCode (k * num) (k * den) = nearestCode num den := by
  have hdiv : k * (num * unitsPerOne) / (k * den) = num * unitsPerOne / den :=
    Nat.mul_div_mul_left _ _ hk
  simp only [nearestCode, Nat.mul_assoc, hdiv, roundQuotient_mul_left hk]

/-- **Rounding depends on the quotient only.** -/
theorem nearestCode_congr {num den num' den' : ℕ} (hden : 0 < den) (hden' : 0 < den')
    (h : num * den' = num' * den) : nearestCode num den = nearestCode num' den' :=
  calc nearestCode num den = nearestCode (den' * num) (den' * den) :=
        (nearestCode_mul_left hden').symm
    _ = nearestCode (den * num') (den * den') := by
        rw [Nat.mul_comm den' num, h, Nat.mul_comm num' den, Nat.mul_comm den' den]
    _ = nearestCode num' den' := nearestCode_mul_left hden

/-- A decimal is rounded as a quotient that equals it. -/
theorem exists_decimalCode_eq (d : Decimal) :
    ∃ num den : ℕ, 0 < den ∧ decimalCode d = nearestCode num den ∧ (num : ℚ) / den = d.value := by
  rw [decimalCode]
  split
  · next h =>
    refine ⟨_, 1, Nat.one_pos, rfl, ?_⟩
    obtain ⟨n, hn⟩ := Int.eq_ofNat_of_zero_le h
    simp [Decimal.value, tenTo, hn]
  · next h =>
    refine ⟨_, _, tenTo_pos _, rfl, ?_⟩
    obtain ⟨n, hn⟩ := Int.exists_eq_neg_ofNat (le_of_not_ge h)
    simp [Decimal.value, tenTo, hn, div_eq_mul_inv]

/-- **The code of a decimal depends on its value only.** -/
theorem decimalCode_congr {d d' : Decimal} (h : d.value = d'.value) :
    decimalCode d = decimalCode d' := by
  obtain ⟨num, den, hden, hcode, hvalue⟩ := exists_decimalCode_eq d
  obtain ⟨num', den', hden', hcode', hvalue'⟩ := exists_decimalCode_eq d'
  rw [hcode, hcode']
  refine nearestCode_congr hden hden' ?_
  have hquot : (num : ℚ) / den = num' / den' := by rw [hvalue, hvalue', h]
  rw [div_eq_div_iff (Nat.cast_ne_zero.2 hden.ne') (Nat.cast_ne_zero.2 hden'.ne')] at hquot
  exact_mod_cast hquot

/-! ### Magnitudes with a code are fixed -/

/-- Nothing is rounded where the quotient is whole. -/
theorem roundQuotient_mul_self {k d : ℕ} (hd : 0 < d) : roundQuotient (k * d) d = k := by
  have hdiv : k * d / d = k := Nat.mul_div_cancel k hd
  have hmod : k * d % d = 0 := Nat.mul_mod_left k d
  simp [roundQuotient, hdiv, hmod, hd]

/-- What has 53 leading bits and otherwise zeros is rounded to itself. -/
theorem nearestCode_of_log2 {m shift : ℕ} (hm : Nat.log2 (m * twoTo shift) - 52 = shift) :
    nearestCode (m * twoTo shift) unitsPerOne = shift * runLength + m := by
  have hpos : 0 < unitsPerOne := twoTo_pos 1074
  have hdiv : m * twoTo shift * unitsPerOne / unitsPerOne = m * twoTo shift :=
    Nat.mul_div_cancel _ hpos
  have hround : roundQuotient (m * twoTo shift * unitsPerOne) (unitsPerOne * twoTo shift) = m := by
    rw [Nat.mul_assoc, Nat.mul_comm (twoTo shift)]
    exact roundQuotient_mul_self (Nat.mul_pos hpos (twoTo_pos shift))
  simp only [nearestCode, hdiv, hm, hround]

/-- A number of 53 bits, shifted, has its leading bit 52 places above the shift. -/
theorem log2_mul_twoTo {m shift : ℕ} (hlow : runLength ≤ m) (hhigh : m < twoTo 53) :
    Nat.log2 (m * twoTo shift) = 52 + shift := by
  have hpos := twoTo_pos shift
  have hne : m * twoTo shift ≠ 0 := (Nat.mul_pos ((twoTo_pos 52).trans_le hlow) hpos).ne'
  rw [Nat.log2_eq_iff hne, Nat.pow_add, Nat.add_right_comm, Nat.pow_add]
  exact ⟨Nat.mul_le_mul_right _ hlow, Nat.mul_lt_mul_of_pos_right hhigh hpos⟩

/-- **Rounding fixes what has a code.** -/
theorem nearestCode_units (code : ℕ) : nearestCode (units code) unitsPerOne = code := by
  rw [units]
  split
  · next h =>
    have hlog : Nat.log2 (code * twoTo 0) - 52 = 0 := by
      rw [show code * twoTo 0 = code from Nat.mul_one code]
      rcases Nat.eq_zero_or_pos code with rfl | hpos
      · rfl
      · have : code.log2 < 52 := (Nat.log2_lt hpos.ne').2 h
        omega
    have hcode := nearestCode_of_log2 hlog
    rwa [show code * twoTo 0 = code from Nat.mul_one code, Nat.zero_mul, Nat.zero_add] at hcode
  · next h =>
    have hrun : 0 < runLength := twoTo_pos 52
    have hlt : code % runLength < runLength := Nat.mod_lt code hrun
    have hlog : Nat.log2 ((runLength + code % runLength) * twoTo (code / runLength - 1)) - 52 =
        code / runLength - 1 := by
      have hhigh : runLength + code % runLength < twoTo 53 := by
        have : twoTo 53 = runLength + runLength := rfl
        omega
      rw [log2_mul_twoTo (Nat.le_add_right _ _) hhigh]
      omega
    have hpos : 1 ≤ code / runLength := (Nat.one_le_div_iff hrun).2 (Nat.le_of_not_lt h)
    rw [nearestCode_of_log2 hlog]
    calc (code / runLength - 1) * runLength + (runLength + code % runLength)
        = (code / runLength - 1 + 1) * runLength + code % runLength := by ring
      _ = runLength * (code / runLength) + code % runLength := by
          rw [Nat.sub_add_cancel hpos, Nat.mul_comm]
      _ = code := Nat.div_add_mod code runLength

/-! ### The shortest decimal -/

/-- The decimal form of a dyadic fraction rounds as the fraction does. -/
theorem decimalCode_dyadic (k : ℕ) {n : ℕ} (hn : 0 < n) :
    decimalCode (dyadic k n) = nearestCode k (twoTo n) := by
  have hneg : ¬(0 : ℤ) ≤ -n := by omega
  have hplace : (- -(n : ℤ)).toNat = n := by omega
  rw [decimalCode, dyadic, if_neg hneg, hplace]
  refine nearestCode_congr (tenTo_pos n) (twoTo_pos n) ?_
  rw [Nat.mul_assoc]
  exact congrArg (k * ·) (Nat.mul_pow 5 2 n).symm

/-- The exact value of a magnitude rounds to its code. -/
theorem decimalCode_exact (code : ℕ) : decimalCode (exact code) = code :=
  (decimalCode_dyadic (units code) (by decide)).trans (nearestCode_units code)

theorem decimalCode_zero : decimalCode ⟨0, 0⟩ = 0 := by
  have hdecimal : decimalCode ⟨0, 0⟩ = nearestCode (0 * tenTo 0) 1 := if_pos (le_refl (0 : ℤ))
  have hunits : units 0 = 0 := if_pos (twoTo_pos 52)
  have hquot : nearestCode (0 * tenTo 0) 1 = nearestCode (units 0) unitsPerOne :=
    nearestCode_congr Nat.one_pos (twoTo_pos 1074) (by simp [hunits])
  exact hdecimal.trans (hquot.trans (nearestCode_units 0))

/-- **The shortest decimal reads back.** -/
theorem decimalCode_shortest (tie : Tie) (code : ℕ) : decimalCode (shortest tie code) = code := by
  rw [shortest]
  split
  · next h => rw [decimalCode_zero, h]
  · rw [decimalCode_congr (Decimal.value_normalize _)]
    rcases hfound : (List.range 17).findSome? _ with - | d
    · exact decimalCode_exact code
    · -- only candidates with this code are found
      obtain ⟨k, -, hk⟩ := List.exists_of_findSome?_eq_some hfound
      have hcode := List.find?_some hk
      rw [beq_iff_eq] at hcode
      rwa [Option.getD_some]

end Binary64

end SchemaCodec
