import SchemaCodec.Json.Printer
import SchemaCodec.Json.Token
import SchemaCodec.Proofs.Binary64.ReadBack
import SchemaCodec.Proofs.Text.Decomposition

/-!
# Scalars and their spelling

The text of a scalar determines the scalar (`Scalar.text_injective`). A number is written as an
optional sign and a `Spelling`: digits, an optional fraction and an optional exponent. Its
characters determine the parts (`Spelling.chars_injective`) and the parts determine a rational
value, which is the value of the decimal that was spelled (`Decimal.value_spelling`); since shortest
decimals read back, that is enough to know the number. A string is read back by the tokenizer
(`stringBody_flatMap_escapeChar`).
-/

namespace SchemaCodec

open Text

/-- The parts of an unsigned number as it is written. -/
@[ext]
structure Spelling where
  whole : List Char
  fraction : Option (List Char)
  exponent : Option ℤ
  whole_ne_nil : whole ≠ []
  isDigit_whole : ∀ c ∈ whole, c.isDigit = true
  isDigit_fraction : ∀ digits ∈ fraction, ∀ c ∈ digits, c.isDigit = true

namespace Spelling

/-- A fraction with its point. -/
def fractionChars : Option (List Char) → List Char
  | none => []
  | some digits => '.' :: digits

/-- An exponent with its sign. -/
def exponentChars : Option ℤ → List Char
  | none => []
  | some power => 'e' :: (if power < 0 then '-' else '+') :: Nat.toDigits 10 power.natAbs

/-- The characters of a spelling. -/
def chars (s : Spelling) : List Char :=
  s.whole ++ (fractionChars s.fraction ++ exponentChars s.exponent)

/-- The number that a spelling stands for. -/
def value (s : Spelling) : ℚ :=
  Nat.ofDigitChars 10 (s.whole ++ s.fraction.getD []) 0 *
    (10 : ℚ) ^ (s.exponent.getD 0 - ((s.fraction.getD []).length : ℤ))

theorem isDigit_toDigits (n : ℕ) : ∀ c ∈ Nat.toDigits 10 n, c.isDigit = true :=
  fun _ hc ↦ Nat.isDigit_of_mem_toDigits (by decide) (by decide) hc

/-- A natural number is known from its decimal digits. -/
theorem toDigits_injective : Function.Injective (Nat.toDigits 10) := by
  intro m n h
  have hvalue := congrArg (fun digits ↦ Nat.ofDigitChars 10 digits 0) h
  simpa only [Nat.ofDigitChars_ten_toDigits] using hvalue

/-- An exponent is known from its characters. -/
theorem exponentChars_injective : Function.Injective exponentChars := by
  intro power power' h
  match power, power' with
  | none, none => rfl
  | some _, none => simp [exponentChars] at h
  | none, some _ => simp [exponentChars] at h
  | some i, some j =>
    simp only [exponentChars, List.cons.injEq, true_and] at h
    have habs : i.natAbs = j.natAbs := toDigits_injective h.2
    have hsign : i < 0 ↔ j < 0 := by grind
    rw [show i = j by omega]

/-- An exponent starts with its letter, which is no digit. -/
theorem exponentChars_head? (power : Option ℤ) : ∀ c ∈ (exponentChars power).head?, c = 'e' := by
  cases power <;> simp [exponentChars]

/-- A fraction ends where the exponent begins or the number ends. -/
theorem fractionChars_append_inj {fraction fraction' : Option (List Char)} {power power' : Option ℤ}
    (hdigit : ∀ digits ∈ fraction, ∀ c ∈ digits, c.isDigit = true)
    (hdigit' : ∀ digits ∈ fraction', ∀ c ∈ digits, c.isDigit = true)
    (h : fractionChars fraction ++ exponentChars power =
      fractionChars fraction' ++ exponentChars power') :
    fraction = fraction' ∧ exponentChars power = exponentChars power' := by
  have hstop (power : Option ℤ) : ∀ c ∈ (exponentChars power).head?, c.isDigit = false := by
    intro c hc
    rw [exponentChars_head? power c hc]
    rfl
  match fraction, fraction' with
  | none, none => exact ⟨rfl, h⟩
  | some digits, some digits' =>
    obtain ⟨rfl, hpower⟩ := run_append_inj (hdigit _ rfl) (hdigit' _ rfl) (hstop power)
      (hstop power') (List.cons.inj h).2
    exact ⟨rfl, hpower⟩
  | some digits, none =>
    have hpoint : exponentChars power' = '.' :: (digits ++ exponentChars power) := h.symm
    exact absurd (exponentChars_head? power' '.' (hpoint ▸ rfl)) (by decide)
  | none, some digits =>
    have hpoint : exponentChars power = '.' :: (digits ++ exponentChars power') := h
    exact absurd (exponentChars_head? power '.' (hpoint ▸ rfl)) (by decide)

/-- **The characters of a number determine its parts.** -/
theorem chars_injective : Function.Injective chars := by
  intro s s' h
  have hstop (s : Spelling) :
      ∀ c ∈ (fractionChars s.fraction ++ exponentChars s.exponent).head?, c.isDigit = false := by
    intro c hc
    rcases hfraction : s.fraction with - | digits
    · rw [hfraction] at hc
      rw [exponentChars_head? _ c hc]
      rfl
    · rw [hfraction] at hc
      rw [← Option.some.inj hc]
      rfl
  obtain ⟨hwhole, htail⟩ :=
    run_append_inj s.isDigit_whole s'.isDigit_whole (hstop s) (hstop s') h
  obtain ⟨hfraction, hexponent⟩ :=
    fractionChars_append_inj s.isDigit_fraction s'.isDigit_fraction htail
  exact Spelling.ext hwhole hfraction (exponentChars_injective hexponent)

/-- A spelling starts with a digit. -/
theorem isDigit_of_head? (s : Spelling) : ∀ c ∈ s.chars.head?, c.isDigit = true := by
  intro c hc
  refine s.isDigit_whole c (List.mem_of_mem_head? ?_)
  rwa [chars, List.head?_append_of_ne_nil _ s.whole_ne_nil] at hc

theorem isWordPart_of_isDigit {c : Char} (h : c.isDigit = true) : isWordPart c = true := by
  have hrange : '0' ≤ c ∧ c ≤ '9' := by simpa [Char.isDigit, Char.le_def] using h
  simp [isWordPart, Identifier.isPart, hrange]

/-- An identifier does not start with a digit. -/
theorem not_isStart_of_isDigit {c : Char} (h : c.isDigit = true) :
    Identifier.isStart c = false := by
  have hle : c.toNat ≤ 57 := by
    simp only [Char.isDigit, Bool.and_eq_true, decide_eq_true_eq] at h
    exact h.2
  have hlt (b : Char) (hb : 57 < b.toNat) : ¬b ≤ c := by
    intro hbc
    exact absurd (Nat.lt_of_lt_of_le hb hbc) (Nat.not_lt.2 hle)
  have hne (b : Char) (hb : b.isDigit = false) : c ≠ b := by
    rintro rfl
    exact Bool.noConfusion (h.symm.trans hb)
  simp [Identifier.isStart, hlt 'a' (by decide), hlt 'A' (by decide), hne '_' rfl, hne '$' rfl]

/-- A spelling consists of word characters. -/
theorem isWordPart_chars (s : Spelling) : ∀ c ∈ s.chars, isWordPart c = true := by
  have hfraction : ∀ c ∈ fractionChars s.fraction, isWordPart c = true := by
    rcases hdigits : s.fraction with - | digits
    · exact List.forall_mem_nil _
    · exact List.forall_mem_cons.2
        ⟨rfl, fun c hc ↦ isWordPart_of_isDigit (s.isDigit_fraction digits hdigits c hc)⟩
  have hexponent : ∀ c ∈ exponentChars s.exponent, isWordPart c = true := by
    rcases s.exponent with - | power
    · exact List.forall_mem_nil _
    · refine List.forall_mem_cons.2 ⟨rfl, List.forall_mem_cons.2 ⟨?_, ?_⟩⟩
      · split <;> rfl
      · exact fun c hc ↦ isWordPart_of_isDigit (isDigit_toDigits _ c hc)
  exact List.forall_mem_append.2 ⟨fun c hc ↦ isWordPart_of_isDigit (s.isDigit_whole c hc),
    List.forall_mem_append.2 ⟨hfraction, hexponent⟩⟩

/-- A spelling has the value of a decimal if it has the same digits, up to zeros behind them. -/
theorem value_eq {s : Spelling} {d : Decimal} (zeros : ℕ)
    (hdigits : Nat.ofDigitChars 10 (s.whole ++ s.fraction.getD []) 0 = 10 ^ zeros * d.digits)
    (hexponent : s.exponent.getD 0 - ((s.fraction.getD []).length : ℤ) = d.exponent - zeros) :
    s.value = d.value := by
  rw [value, Decimal.value, hdigits, hexponent, zpow_sub₀ (by norm_num), zpow_natCast]
  push_cast
  field_simp

end Spelling

/-! ### Decimals -/

namespace Decimal

open Spelling

theorem isDigit_replicate_zero {n : ℕ} : ∀ c ∈ List.replicate n '0', c.isDigit = true := by
  intro c hc
  rw [List.eq_of_mem_replicate hc]
  rfl

/-- Positional notation in parts. -/
def positionalSpelling (d : Decimal) : Spelling :=
  if h : d.leading + 1 ≤ 0 then
    { whole := ['0']
      fraction := some (List.replicate (-(d.leading + 1)).toNat '0' ++ Nat.toDigits 10 d.digits)
      exponent := none
      whole_ne_nil := List.cons_ne_nil _ _
      isDigit_whole := List.forall_mem_singleton.2 rfl
      isDigit_fraction := by
        rintro _ ⟨⟩
        exact List.forall_mem_append.2 ⟨isDigit_replicate_zero, isDigit_toDigits _⟩ }
  else
    { whole := (Nat.toDigits 10 d.digits).take (d.leading + 1).toNat ++
        List.replicate ((d.leading + 1).toNat - (Nat.toDigits 10 d.digits).length) '0'
      fraction := some (
        if ((Nat.toDigits 10 d.digits).drop (d.leading + 1).toNat).isEmpty then ['0']
        else (Nat.toDigits 10 d.digits).drop (d.leading + 1).toNat)
      exponent := none
      whole_ne_nil := by
        have hpos : (d.leading + 1).toNat ≠ 0 := by omega
        simp [Nat.toDigits_ne_nil, hpos]
      isDigit_whole := List.forall_mem_append.2
        ⟨fun c hc ↦ isDigit_toDigits _ c (List.mem_of_mem_take hc), isDigit_replicate_zero⟩
      isDigit_fraction := by
        rintro _ ⟨⟩
        split
        · exact List.forall_mem_singleton.2 rfl
        · exact fun c hc ↦ isDigit_toDigits _ c (List.mem_of_mem_drop hc) }

/-- Scientific notation in parts. -/
def scientificSpelling (d : Decimal) : Spelling where
  whole := (Nat.toDigits 10 d.digits).take 1
  fraction :=
    if (Nat.toDigits 10 d.digits).length = 1 then none else some ((Nat.toDigits 10 d.digits).drop 1)
  exponent := some d.leading
  whole_ne_nil := by simp [Nat.toDigits_ne_nil]
  isDigit_whole c hc := isDigit_toDigits _ c (List.mem_of_mem_take hc)
  isDigit_fraction := by
    split
    · simp
    · rintro _ ⟨⟩
      exact fun c hc ↦ isDigit_toDigits _ c (List.mem_of_mem_drop hc)

/-- The text of a decimal in parts. -/
def spelling (r : Range) (d : Decimal) : Spelling :=
  if r.contains d.leading then d.positionalSpelling else d.scientificSpelling

theorem toList_positional (d : Decimal) : d.positional.toList = d.positionalSpelling.chars := by
  rw [positional, positionalSpelling]
  split <;> simp [Spelling.chars, fractionChars, exponentChars]

theorem toList_scientific (d : Decimal) : d.scientific.toList = d.scientificSpelling.chars := by
  simp only [scientific, scientificSpelling, Spelling.chars]
  rcases hdigits : Nat.toDigits 10 d.digits with - | ⟨c, - | ⟨c', rest⟩⟩
  · exact absurd hdigits Nat.toDigits_ne_nil
  · simp [fractionChars, exponentChars]
  · simp [fractionChars, exponentChars]

/-- The text of a decimal is the characters of its spelling, in either form. -/
theorem toList_text (r : Range) (d : Decimal) : (d.text r).toList = (d.spelling r).chars := by
  rw [text, spelling]
  split
  · exact toList_positional d
  · exact toList_scientific d

/-- The place above the leading digit, from the number of digits. -/
theorem leading_add_one (d : Decimal) :
    d.leading + 1 = d.exponent + (Nat.toDigits 10 d.digits).length := by
  rw [leading, digitCount]
  ring

/-- A positional spelling stands for the decimal, padded with zeros on either side or not. -/
theorem value_positionalSpelling (d : Decimal) : d.positionalSpelling.value = d.value := by
  have hpoint := d.leading_add_one
  have hdigits : Nat.ofDigitChars 10 (Nat.toDigits 10 d.digits) 0 = d.digits :=
    Nat.ofDigitChars_ten_toDigits
  rw [positionalSpelling]
  split
  · refine value_eq 0 ?_ ?_
    · simp [Nat.ofDigitChars_append, Nat.ofDigitChars_cons, Nat.ofDigitChars_replicate_zero,
        hdigits]
    · simp
      omega
  · next hpos =>
    rcases Nat.lt_or_ge (d.leading + 1).toNat (Nat.toDigits 10 d.digits).length with hlen | hlen
    · have hdrop : (Nat.toDigits 10 d.digits).drop (d.leading + 1).toNat ≠ [] := by
        simpa using hlen
      have hzeros := Nat.sub_eq_zero_of_le hlen.le
      refine value_eq 0 ?_ ?_
      · simp [hdrop, hzeros, hdigits]
      · simp [hdrop]
        omega
    · -- zeros fill the places up to the point, and one stands behind it
      have htake := List.take_of_length_le hlen
      have hdrop := List.drop_eq_nil_of_le hlen
      refine value_eq ((d.leading + 1).toNat - (Nat.toDigits 10 d.digits).length + 1) ?_ ?_
      · simp [htake, hdrop, Nat.ofDigitChars_append, Nat.ofDigitChars_cons,
          Nat.ofDigitChars_replicate_zero, hdigits]
        ring
      · simp [hdrop]
        omega

/-- A scientific spelling stands for the decimal. -/
theorem value_scientificSpelling (d : Decimal) : d.scientificSpelling.value = d.value := by
  have hpoint := d.leading_add_one
  have hfraction : d.scientificSpelling.fraction.getD [] = (Nat.toDigits 10 d.digits).drop 1 := by
    rw [scientificSpelling]
    split
    · next hlen => exact (List.drop_eq_nil_of_le hlen.le).symm
    · rfl
  refine value_eq 0 ?_ ?_
  · rw [hfraction, scientificSpelling, List.take_append_drop, Nat.ofDigitChars_ten_toDigits]
    simp
  · have hlen : 0 < (Nat.toDigits 10 d.digits).length := Nat.length_toDigits_pos
    have hpower : d.scientificSpelling.exponent.getD 0 = d.leading := rfl
    rw [hfraction, hpower, List.length_drop]
    omega

/-- **A decimal is spelled with its value.** -/
theorem value_spelling (r : Range) (d : Decimal) : (d.spelling r).value = d.value := by
  rw [spelling]
  split
  · exact value_positionalSpelling d
  · exact value_scientificSpelling d

end Decimal

namespace Json

/-! ### Numbers -/

namespace Number

/-- Whether a number is written with a sign. -/
def isNegative : Number → Bool
  | .integer i => decide (i < 0)
  | .binary x => x.negative

/-- What follows the sign of a number. -/
def spelling : Number → Spelling
  | .integer i =>
    { whole := Nat.toDigits 10 i.natAbs
      fraction := none
      exponent := none
      whole_ne_nil := Nat.toDigits_ne_nil
      isDigit_whole := Spelling.isDigit_toDigits _
      isDigit_fraction := by simp }
  | .binary x => (Binary64.shortest numberStyle.tie x.code).spelling numberStyle.positional

/-- The sign of a number. -/
def signChars (negative : Bool) : List Char :=
  if negative then ['-'] else []

/-- The text of a number is a sign and the characters of a spelling. -/
theorem toList_text (n : Number) : n.text.toList = signChars n.isNegative ++ n.spelling.chars := by
  cases n with
  | integer i =>
    by_cases h : i < 0 <;>
      simp [text, integerText, signChars, isNegative, spelling, Spelling.chars,
        Spelling.fractionChars, Spelling.exponentChars, h]
  | binary x =>
    cases h : x.negative <;>
      simp [text, Binary64.text, signChars, isNegative, spelling, Decimal.toList_text, h]

/-- A sign is no digit, so sign and spelling are known from their characters. -/
theorem signChars_append_inj {negative negative' : Bool} {s s' : Spelling}
    (h : signChars negative ++ s.chars = signChars negative' ++ s'.chars) :
    negative = negative' ∧ s = s' := by
  have hsign (s : Spelling) {cs : List Char} : s.chars ≠ '-' :: cs := by
    intro hs
    exact absurd (s.isDigit_of_head? '-' (hs ▸ rfl)) (by decide)
  match negative, negative' with
  | true, true => exact ⟨rfl, Spelling.chars_injective (List.cons.inj h).2⟩
  | false, false => exact ⟨rfl, Spelling.chars_injective h⟩
  | true, false => exact absurd h.symm (hsign s')
  | false, true => exact absurd h (hsign s)

/-- Only a number that is no integer has a fraction or an exponent. -/
theorem isInteger_spelling (n : Number) :
    (n.spelling.fraction = none ∧ n.spelling.exponent = none) ↔ ∃ i, n = .integer i := by
  cases n with
  | integer i => exact iff_of_true ⟨rfl, rfl⟩ ⟨i, rfl⟩
  | binary x =>
    refine iff_of_false ?_ (by simp)
    simp only [spelling, Decimal.spelling]
    split
    · rw [Decimal.positionalSpelling]
      split <;> simp
    · simp [Decimal.scientificSpelling]

/-- **The text of a number determines the number.** -/
theorem text_injective : Function.Injective text := by
  intro m n h
  have hchars := congrArg String.toList h
  rw [toList_text, toList_text] at hchars
  obtain ⟨hsign, hspelling⟩ := signChars_append_inj hchars
  have hinteger : (∃ i, m = .integer i) ↔ ∃ i, n = .integer i := by
    rw [← isInteger_spelling, ← isInteger_spelling, hspelling]
  match m, n with
  | .integer i, .integer j =>
    have habs : i.natAbs = j.natAbs :=
      Spelling.toDigits_injective (congrArg Spelling.whole hspelling)
    have hneg : i < 0 ↔ j < 0 := decide_eq_decide.1 hsign
    rw [show i = j by omega]
  | .binary ⟨negative, code, finite⟩, .binary ⟨negative', code', finite'⟩ =>
    have hvalue := congrArg Spelling.value hspelling
    simp only [spelling, Decimal.value_spelling] at hvalue
    have hcode := Binary64.decimalCode_congr hvalue
    rw [Binary64.decimalCode_shortest, Binary64.decimalCode_shortest] at hcode
    obtain rfl : negative = negative' := hsign
    subst hcode
    rfl
  | .integer i, .binary y => exact absurd (hinteger.1 ⟨i, rfl⟩) (by simp)
  | .binary x, .integer j => exact absurd (hinteger.2 ⟨j, rfl⟩) (by simp)

theorem isWordPart_text (n : Number) : ∀ c ∈ n.text.toList, isWordPart c = true := by
  rw [toList_text]
  refine List.forall_mem_append.2 ⟨?_, n.spelling.isWordPart_chars⟩
  cases n.isNegative with
  | true => exact List.forall_mem_singleton.2 rfl
  | false => exact List.forall_mem_nil _

end Number

/-! ### Strings -/

/-- The escape of a control character reads back; there are few enough to try. -/
theorem hex4?_hexDigit : ∀ n < 0x20,
    Token.hex4? '0' '0' (hexDigit (n / 16)) (hexDigit (n % 16)) = some n := by
  decide

/-- A short escape is read as the character that it stands for. -/
theorem stringBody_shortEscape {c letter : Char} (h : Token.shortEscape? letter = some c)
    (rest : List Char) : Token.stringBody ('\\' :: letter :: rest) =
      (Token.stringBody rest).map fun p ↦ (c :: p.1, p.2) := by
  have hletter : letter ≠ 'u' := by
    rintro rfl
    simp [Token.shortEscape?] at h
  rw [Token.stringBody]
  · simp [h]
  · exact fun _ _ _ _ _ hu _ ↦ hletter hu

/-- One written character is read back. -/
theorem stringBody_escapeChar (c : Char) (rest : List Char) :
    Token.stringBody (escapeChar c ++ rest) =
      (Token.stringBody rest).map fun p ↦ (c :: p.1, p.2) := by
  rw [escapeChar]
  split_ifs with hquote hslash hb hf hn hr ht hcontrol
  · exact stringBody_shortEscape (by rw [hquote]; rfl) rest
  · exact stringBody_shortEscape (by rw [hslash]; rfl) rest
  · exact stringBody_shortEscape (by rw [hb]; rfl) rest
  · exact stringBody_shortEscape (by rw [hf]; rfl) rest
  · exact stringBody_shortEscape (by rw [hn]; rfl) rest
  · exact stringBody_shortEscape (by rw [hr]; rfl) rest
  · exact stringBody_shortEscape (by rw [ht]; rfl) rest
  · have hhigh : ¬Token.isHighSurrogate c.toNat := by
      rw [Token.isHighSurrogate, decide_eq_true_iff]
      omega
    have hlow : ¬Token.isLowSurrogate c.toNat := by
      rw [Token.isLowSurrogate, decide_eq_true_iff]
      omega
    simp [Token.stringBody, hex4?_hexDigit c.toNat hcontrol, hhigh, hlow]
  · rw [List.singleton_append, Token.stringBody]
    · simp [hcontrol, hslash]
    · exact hquote
    · exact fun _ _ _ _ _ h _ ↦ hslash h
    · exact fun _ _ h _ ↦ hslash h

/-- **A string is read back.** -/
theorem stringBody_flatMap_escapeChar (cs rest : List Char) :
    Token.stringBody (cs.flatMap escapeChar ++ '"' :: rest) = some (cs, rest) := by
  induction cs with
  | nil => rfl
  | cons c cs ih =>
    rw [List.flatMap_cons, List.append_assoc, stringBody_escapeChar, ih, Option.map_some]

/-- A quoted text ends at its own closing quote. -/
theorem quote_append_inj {s s' : String} {rest rest' : List Char}
    (h : (quote s).toList ++ rest = (quote s').toList ++ rest') : s = s' ∧ rest = rest' := by
  have hbody (s : String) (rest : List Char) : (quote s).toList ++ rest =
      '"' :: (s.toList.flatMap escapeChar ++ '"' :: rest) := by simp [quote]
  rw [hbody, hbody] at h
  have hread := congrArg Token.stringBody (List.cons.inj h).2
  rw [stringBody_flatMap_escapeChar, stringBody_flatMap_escapeChar] at hread
  obtain ⟨hs, hrest⟩ := Prod.mk.inj (Option.some.inj hread)
  exact ⟨String.toList_inj.1 hs, hrest⟩

theorem quote_injective : Function.Injective quote := by
  intro s s' h
  exact (@quote_append_inj s s' [] [] (by rw [h])).1

/-! ### Scalars -/

/-- A number starts with a digit or a sign, unlike an identifier. -/
theorem Number.isStart_head?_text (n : Number) :
    ∀ c ∈ n.text.toList.head?, Identifier.isStart c = false := by
  intro c hc
  rw [toList_text] at hc
  cases h : n.isNegative with
  | true =>
    rw [h] at hc
    rw [← Option.some.inj hc]
    rfl
  | false =>
    rw [h] at hc
    exact Spelling.not_isStart_of_isDigit (n.spelling.isDigit_of_head? c hc)

/-- No number is spelled like an identifier. -/
theorem Number.text_ne_of_isStart (n : Number) {w : String} {c : Char} (hc : c ∈ w.toList.head?)
    (hstart : Identifier.isStart c = true) : n.text ≠ w := by
  rintro rfl
  rw [n.isStart_head?_text c hc] at hstart
  exact absurd hstart (by decide)

theorem Number.text_ne_quote (n : Number) (s : String) : n.text ≠ quote s := by
  intro h
  have hquote : '"' ∈ n.text.toList := by simp [h, quote]
  exact absurd (n.isWordPart_text '"' hquote) (by decide)

/-- A scalar that is spelled like a number is that number. -/
theorem Scalar.eq_number_of_text {n : Number} {s : Scalar} (h : s.text = n.text) :
    s = .number n := by
  have hword {c : Char} (hc : c ∈ s.text.toList.head?) : Identifier.isStart c ≠ true :=
    fun hstart ↦ n.text_ne_of_isStart hc hstart h.symm
  rcases s with - | (- | -) | m | t
  · exact absurd rfl (@hword 'n' rfl)
  · exact absurd rfl (@hword 'f' rfl)
  · exact absurd rfl (@hword 't' rfl)
  · rw [Number.text_injective h]
  · exact absurd h.symm (n.text_ne_quote t)

/-- A scalar that is spelled like a quoted text is that string. -/
theorem Scalar.eq_string_of_text {t : String} {s : Scalar} (h : s.text = quote t) :
    s = .string t := by
  have hquote : '"' ∈ s.text.toList := by simp [h, quote]
  rcases s with - | (- | -) | n | t'
  · exact absurd hquote (by decide)
  · exact absurd hquote (by decide)
  · exact absurd hquote (by decide)
  · exact absurd h (n.text_ne_quote t)
  · rw [quote_injective h]

/-- **The text of a scalar determines the scalar.** -/
theorem Scalar.text_injective : Function.Injective Scalar.text := by
  intro s s' h
  match s, s' with
  | s, .number n => exact eq_number_of_text h
  | s, .string t => exact eq_string_of_text h
  | .number n, s' => exact (eq_number_of_text h.symm).symm
  | .string t, s' => exact (eq_string_of_text h.symm).symm
  | .null, .null => rfl
  | .null, .bool b => cases b <;> exact absurd h (by decide)
  | .bool b, .null => cases b <;> exact absurd h (by decide)
  | .bool b, .bool b' => cases b <;> cases b' <;> first | rfl | exact absurd h (by decide)

/-- Scalars other than strings are words. -/
theorem Scalar.isWordPart_text {s : Scalar} (h : ∀ t, s ≠ .string t) :
    ∀ c ∈ s.text.toList, isWordPart c = true := by
  rcases s with - | (- | -) | n | t
  · exact List.all_eq_true.1 (by decide)
  · exact List.all_eq_true.1 (by decide)
  · exact List.all_eq_true.1 (by decide)
  · exact n.isWordPart_text
  · exact absurd rfl (h t)

theorem Scalar.text_ne_empty (s : Scalar) : s.text.toList ≠ [] := by
  rcases s with - | (- | -) | n | t
  · decide
  · decide
  · decide
  · simp [text, Number.toList_text, Spelling.chars, n.spelling.whole_ne_nil]
  · simp [text, quote]

/-- Texts of scalars can be told apart where a delimiter follows. -/
theorem Scalar.separable (s s' : Scalar) : Separable (fun s ↦ s.text.toList) s s' := by
  -- a quote can neither belong to a word nor follow one
  have hquote {s : Scalar} {t : String} {rest rest' : List Char} (hs : ∀ t, s ≠ .string t)
      (hrest : Delimited rest) : s.text.toList ++ rest ≠ (quote t).toList ++ rest' := by
    intro h
    have hstart : EndsWord ((quote t).toList ++ rest') := by
      rintro c hc
      obtain rfl : '"' = c := by simpa [quote] using hc
      rfl
    have hnil := h.trans (List.nil_append ((quote t).toList ++ rest')).symm
    have hend := run_append_inj (isWordPart_text hs) (List.forall_mem_nil _) hrest.endsWord hstart
      hnil
    rw [hend.2] at hrest
    exact absurd (hrest '"' (by simp [quote])) (by decide)
  intro rest rest' hrest hrest' h
  by_cases hs : ∃ t, s = .string t <;> by_cases hs' : ∃ t, s' = .string t
  · obtain ⟨t, rfl⟩ := hs
    obtain ⟨t', rfl⟩ := hs'
    obtain ⟨rfl, hrest⟩ := quote_append_inj h
    exact ⟨rfl, hrest⟩
  · obtain ⟨t, rfl⟩ := hs
    exact absurd h.symm (hquote (not_exists.1 hs') hrest')
  · obtain ⟨t', rfl⟩ := hs'
    exact absurd h (hquote (not_exists.1 hs) hrest)
  · obtain ⟨htext, hrest⟩ := run_append_inj (isWordPart_text (not_exists.1 hs))
      (isWordPart_text (not_exists.1 hs')) hrest.endsWord hrest'.endsWord h
    exact ⟨text_injective (String.toList_inj.1 htext), hrest⟩

/-! ### Tokens -/

namespace Token

/-- A scan goes on behind its first token. -/
theorem scan_cons {c : Char} {rest rest' : List Char} {t : Token} (hblank : isBlank c = false)
    (h : first? c rest = some (t, rest')) : scan (c :: rest) = (scan rest').cons t := by
  rw [scan, if_neg (by simp [hblank])]
  split
  · next hnone => exact absurd (h.symm.trans hnone) (by simp)
  · next hsome =>
    obtain ⟨rfl, rfl⟩ := Prod.mk.inj (Option.some_inj.1 (h.symm.trans hsome))
    rfl

/-- A quoted string is one token. -/
theorem scan_quote (s : String) (rest : List Char) :
    scan ((quote s).toList ++ rest) = (scan rest).cons (.scalar (.string s)) := by
  have hbody : (quote s).toList ++ rest =
      '"' :: (s.toList.flatMap escapeChar ++ '"' :: rest) := by simp [quote]
  rw [hbody]
  refine scan_cons rfl ?_
  show (stringBody _).map _ = _
  rw [stringBody_flatMap_escapeChar, Option.map_some, String.ofList_toList]

end Token

end Json

end SchemaCodec
