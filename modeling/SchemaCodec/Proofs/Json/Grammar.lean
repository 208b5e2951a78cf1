import SchemaCodec.Json.Event
import SchemaCodec.Proofs.Json.Spelling

/-!
# JSON texts

The grammar of JSON, stated without a reader. A `Lexeme` is one of the ways to write a token: a
string has all the escapes, a number its sign, fraction and exponent. A text is a row of lexemes
with blanks anywhere between them, and a number ends where it cannot be continued (`WritesTokens`).
A value is written by the tokens that it consists of (`Writes`), with its fields as they come,
repeated keys included.

The reader gets all of this back: the tokens (`scan_of_writesTokens`) and the events of the value
(`events_of_writes`).
-/

namespace SchemaCodec.Json

open Token

/-! ### Lexemes -/

/-- The ways to write one character of a string. -/
inductive WritesChar : Char → List Char → Prop
  | plain {c : Char} (hcontrol : 0x20 ≤ c.toNat) (hquote : c ≠ '"') (hslash : c ≠ '\\') :
      WritesChar c [c]
  | short {c letter : Char} (h : shortEscape? letter = some c) : WritesChar c ['\\', letter]
  | unit {c w x y z : Char} (h : hex4? w x y z = some c.toNat) :
      WritesChar c ['\\', 'u', w, x, y, z]
  /-- A character beyond U+FFFF as a pair of surrogates. -/
  | pair {w x y z w' x' y' z' : Char} {high low : ℕ} (hhigh : hex4? w x y z = some high)
      (hlow : hex4? w' x' y' z' = some low) (hhigh' : 0xD800 ≤ high ∧ high < 0xDC00)
      (hlow' : 0xDC00 ≤ low ∧ low < 0xE000) :
      WritesChar (Char.ofNat (0x10000 + (high - 0xD800) * 0x400 + (low - 0xDC00)))
        ['\\', 'u', w, x, y, z, '\\', 'u', w', x', y', z']

/-- The characters of a string, one after the other. -/
inductive WritesChars : List Char → List Char → Prop
  | nil : WritesChars [] []
  | cons {c : Char} {chars cs rest : List Char} (hc : WritesChar c cs)
      (hrest : WritesChars chars rest) : WritesChars (c :: chars) (cs ++ rest)

/-- Characters that need no escape are written as they are. -/
theorem WritesChars.plain {chars : List Char}
    (h : ∀ c ∈ chars, 0x20 ≤ c.toNat ∧ c ≠ '"' ∧ c ≠ '\\') : WritesChars chars chars := by
  induction chars with
  | nil => exact .nil
  | cons c chars ih =>
    obtain ⟨⟨hcontrol, hquote, hslash⟩, hchars⟩ := List.forall_mem_cons.1 h
    exact .cons (.plain hcontrol hquote hslash) (ih hchars)

/-- Digits, at least one. -/
structure IsDigits (cs : List Char) : Prop where
  ne_nil : cs ≠ []
  isDigit : ∀ c ∈ cs, Token.isDigit c = true

/-- The digits before the point, without a leading zero. -/
structure IsWhole (cs : List Char) : Prop extends IsDigits cs where
  leading : ∀ rest, cs = '0' :: rest → rest = []

/-- The digits behind the point, if there is one. -/
inductive WritesFraction : (digits : List Char) → List Char → Prop
  | absent : WritesFraction [] []
  | present {digits : List Char} (h : IsDigits digits) : WritesFraction digits ('.' :: digits)

/-- The power of ten that follows, if there is one. -/
inductive WritesExponent : (power : ℤ) → List Char → Prop
  | absent : WritesExponent 0 []
  | unsigned {mark : Char} {digits : List Char} (hmark : mark = 'e' ∨ mark = 'E')
      (h : IsDigits digits) : WritesExponent (digitsValue digits) (mark :: digits)
  | plus {mark : Char} {digits : List Char} (hmark : mark = 'e' ∨ mark = 'E')
      (h : IsDigits digits) : WritesExponent (digitsValue digits) (mark :: '+' :: digits)
  | minus {mark : Char} {digits : List Char} (hmark : mark = 'e' ∨ mark = 'E')
      (h : IsDigits digits) : WritesExponent (-digitsValue digits) (mark :: '-' :: digits)

/-- The ways to write a number behind its sign. -/
inductive WritesUnsigned (negative : Bool) : Number → List Char → Prop
  | integer {n : Number} {whole : List Char} (hwhole : IsWhole whole)
      (h : integerNumber? negative (digitsValue whole) = some n) : WritesUnsigned negative n whole
  | binary {x : Binary64} {whole digits fraction exponent : List Char} {power : ℤ}
      (hwhole : IsWhole whole) (hfraction : WritesFraction digits fraction)
      (hexponent : WritesExponent power exponent) (hpart : fraction ≠ [] ∨ exponent ≠ [])
      (h : Binary64.ofDecimal? negative ⟨digitsValue (whole ++ digits), power - digits.length⟩ =
        some x) :
      WritesUnsigned negative (.binary x) (whole ++ (fraction ++ exponent))

/-- The ways to write a token. -/
inductive Lexeme : Token → List Char → Prop
  | openArray : Lexeme .openArray ['[']
  | closeArray : Lexeme .closeArray [']']
  | openObject : Lexeme .openObject ['\x7b']
  | closeObject : Lexeme .closeObject ['\x7d']
  | comma : Lexeme .comma [',']
  | colon : Lexeme .colon [':']
  | null : Lexeme (.scalar .null) ['n', 'u', 'l', 'l']
  | yes : Lexeme (.scalar (.bool true)) ['t', 'r', 'u', 'e']
  | no : Lexeme (.scalar (.bool false)) ['f', 'a', 'l', 's', 'e']
  | unsigned {n : Number} {cs : List Char} (h : WritesUnsigned false n cs) :
      Lexeme (.scalar (.number n)) cs
  | negative {n : Number} {cs : List Char} (h : WritesUnsigned true n cs) :
      Lexeme (.scalar (.number n)) ('-' :: cs)
  | string {s : String} {cs : List Char} (h : WritesChars s.toList cs) :
      Lexeme (.scalar (.string s)) ('"' :: (cs ++ ['"']))

/-- No number continues here. -/
def EndsNumber (cs : List Char) : Prop :=
  ∀ c ∈ cs.head?, Token.isDigit c = false ∧ c ≠ '.' ∧ c ≠ 'e' ∧ c ≠ 'E'

/-- The ways to write a row of tokens. -/
inductive WritesTokens : List Token → List Char → Prop
  | nil {blanks : List Char} (hblanks : ∀ c ∈ blanks, isBlank c = true) : WritesTokens [] blanks
  | cons {t : Token} {ts : List Token} {blanks cs rest : List Char}
      (hblanks : ∀ c ∈ blanks, isBlank c = true) (ht : Lexeme t cs)
      (hend : ∀ n, t = .scalar (.number n) → EndsNumber rest) (hrest : WritesTokens ts rest) :
      WritesTokens (t :: ts) (blanks ++ (cs ++ rest))

/-! ### Values -/

/-- Rows of tokens with commas between them. -/
def separated (rows : List (List Token)) : List Token :=
  [Token.comma].intercalate rows

mutual

/-- The tokens of a value. -/
def tokens : Json → List Token
  | .scalar s => [.scalar s]
  | .array items => .openArray :: (separated (tokensItems items) ++ [.closeArray])
  | .object fields => .openObject :: (separated (tokensFields fields) ++ [.closeObject])

/-- The tokens of array items. -/
def tokensItems : List Json → List (List Token)
  | [] => []
  | v :: rest => v.tokens :: tokensItems rest

/-- The tokens of fields. -/
def tokensFields : List (String × Json) → List (List Token)
  | [] => []
  | (key, v) :: rest => (.scalar (.string key) :: .colon :: v.tokens) :: tokensFields rest

end

/-- The ways to write a value. -/
def Writes (v : Json) (text : String) : Prop :=
  WritesTokens v.tokens text.toList

mutual

/-- The events of a value. -/
def valueEvents : Json → List (Event Scalar)
  | .scalar s => [.leaf s]
  | .array items => .openList :: (itemEvents items ++ [.closeList])
  | .object fields => .openMap :: (fieldEvents fields ++ [.closeMap])

/-- The events of array items. -/
def itemEvents : List Json → List (Event Scalar)
  | [] => []
  | v :: rest => v.valueEvents ++ itemEvents rest

/-- The events of fields. -/
def fieldEvents : List (String × Json) → List (Event Scalar)
  | [] => []
  | (key, v) :: rest => .leaf (.string key) :: (v.valueEvents ++ fieldEvents rest)

end

/-! ### Strings are read back -/

/-- One written character is read as the character it stands for. -/
theorem stringBody_of_writesChar {c : Char} {cs : List Char} (h : WritesChar c cs)
    (rest : List Char) :
    stringBody (cs ++ rest) = (stringBody rest).map fun p ↦ (c :: p.1, p.2) := by
  cases h with
  | plain hcontrol hquote hslash =>
    rw [List.singleton_append, stringBody]
    · simp [Nat.not_lt.2 hcontrol, hslash]
    · exact hquote
    · exact fun _ _ _ _ _ h _ ↦ hslash h
    · exact fun _ _ h _ ↦ hslash h
  | short h => exact stringBody_shortEscape h rest
  | unit h =>
    have hvalid : c.toNat < 0xD800 ∨ 0xDFFF < c.toNat ∧ c.toNat < 0x110000 := c.valid
    have hhigh : ¬isHighSurrogate c.toNat := by
      rw [isHighSurrogate, decide_eq_true_iff]
      omega
    have hlow : ¬isLowSurrogate c.toNat := by
      rw [isLowSurrogate, decide_eq_true_iff]
      omega
    simp [stringBody, h, hhigh, hlow]
  | @pair _ _ _ _ _ _ _ _ high low hhigh hlow hhigh' hlow' =>
    have hfirst : isHighSurrogate high := decide_eq_true hhigh'
    have hsecond : isLowSurrogate low := decide_eq_true hlow'
    simp [stringBody, hhigh, hlow, hfirst, hsecond]

/-- A run of written characters is read up to the closing quote. -/
theorem stringBody_of_writesChars {chars cs : List Char} (h : WritesChars chars cs)
    (rest : List Char) : stringBody (cs ++ '"' :: rest) = some (chars, rest) := by
  induction h with
  | nil => rfl
  | cons hc _ ih => rw [List.append_assoc, stringBody_of_writesChar hc, ih, Option.map_some]

/-! ### Numbers are read back -/

section Numbers

variable {rest : List Char}

theorem spanDigits_append {digits : List Char} (h : ∀ c ∈ digits, Token.isDigit c = true)
    (hrest : ∀ c ∈ rest.head?, Token.isDigit c = false) :
    spanDigits (digits ++ rest) = (digits, rest) := by
  have htake := Text.takeWhile_append_of_head? h hrest
  have hsplit := List.takeWhile_append_dropWhile (p := Token.isDigit) (l := digits ++ rest)
  rw [htake] at hsplit
  rw [spanDigits, htake, List.append_cancel_left hsplit]

/-- A whole part is read up to the first character that is no digit. -/
theorem wholePart_append {whole : List Char} (h : IsWhole whole)
    (hrest : ∀ c ∈ rest.head?, Token.isDigit c = false) :
    wholePart (whole ++ rest) = some (whole, rest) := by
  simp only [wholePart, spanDigits_append h.isDigit hrest]
  split
  · exact absurd rfl h.ne_nil
  · exact absurd (h.leading _ rfl) (List.cons_ne_nil _ _)
  · rfl

/-- A fraction is read as its digits, and its absence as no fraction. -/
theorem fractionPart_append {digits fraction : List Char} (h : WritesFraction digits fraction)
    (hrest : ∀ c ∈ rest.head?, Token.isDigit c = false ∧ c ≠ '.') :
    ∃ found, fractionPart (fraction ++ rest) = some (found, rest) ∧ found.getD [] = digits ∧
      (found = none ↔ fraction = []) := by
  cases h with
  | absent =>
    refine ⟨none, ?_, rfl, by simp⟩
    rw [List.nil_append, fractionPart]
    rintro tail rfl
    exact (hrest '.' rfl).2 rfl
  | present h =>
    refine ⟨some digits, ?_, rfl, by simp⟩
    rw [List.cons_append, fractionPart, spanDigits_append h.isDigit fun c hc ↦ (hrest c hc).1]
    simp [h.ne_nil]

theorem signPart_digits {digits : List Char} (h : IsDigits digits) :
    signPart (digits ++ rest) = (false, digits ++ rest) := by
  obtain ⟨c, tail, rfl⟩ := List.exists_cons_of_ne_nil h.ne_nil
  have hc := h.isDigit c List.mem_cons_self
  rw [List.cons_append, signPart]
  · rintro _ ⟨⟩
    exact absurd hc (by decide)
  · rintro _ ⟨⟩
    exact absurd hc (by decide)

/-- An exponent behind its mark, once the sign has been read. -/
theorem exponentPart_mark {mark : Char} (hmark : mark = 'e' ∨ mark = 'E') {negative : Bool}
    {signed digits : List Char} (hsign : signPart signed = (negative, digits ++ rest))
    (h : IsDigits digits) (hrest : ∀ c ∈ rest.head?, Token.isDigit c = false) :
    exponentPart (mark :: signed) =
      some (some (if negative then -(digitsValue digits : ℤ) else digitsValue digits), rest) := by
  simp [exponentPart, hmark, hsign, spanDigits_append h.isDigit hrest, h.ne_nil]

/-- An exponent is read as its power, and its absence as no exponent. -/
theorem exponentPart_append {power : ℤ} {exponent : List Char} (h : WritesExponent power exponent)
    (hrest : ∀ c ∈ rest.head?, Token.isDigit c = false ∧ c ≠ 'e' ∧ c ≠ 'E') :
    ∃ found, exponentPart (exponent ++ rest) = some (found, rest) ∧ found.getD 0 = power ∧
      (found = none ↔ exponent = []) := by
  have hdigit : ∀ c ∈ rest.head?, Token.isDigit c = false := fun c hc ↦ (hrest c hc).1
  cases h with
  | absent =>
    refine ⟨none, ?_, rfl, by simp⟩
    rcases rest with - | ⟨c, rest⟩
    · rfl
    · simp [exponentPart, (hrest c rfl).2]
  | unsigned hmark h =>
    exact ⟨_, exponentPart_mark hmark (signPart_digits h) h hdigit, rfl, by simp⟩
  | plus hmark h => exact ⟨_, exponentPart_mark hmark rfl h hdigit, rfl, by simp⟩
  | minus hmark h => exact ⟨_, exponentPart_mark hmark rfl h hdigit, rfl, by simp⟩

/-- An exponent starts with its mark. -/
theorem WritesExponent.head? {power : ℤ} {exponent : List Char} (h : WritesExponent power exponent) :
    ∀ c ∈ exponent.head?, c = 'e' ∨ c = 'E' := by
  cases h with
  | absent => simp
  | unsigned hmark _ => rintro c ⟨⟩; exact hmark
  | plus hmark _ => rintro c ⟨⟩; exact hmark
  | minus hmark _ => rintro c ⟨⟩; exact hmark

/-- A fraction starts with its point. -/
theorem WritesFraction.head? {digits fraction : List Char} (h : WritesFraction digits fraction) :
    ∀ c ∈ fraction.head?, c = '.' := by
  cases h with
  | absent => simp
  | present _ => rintro c ⟨⟩; rfl

/-- An unsigned number starts with a digit. -/
theorem WritesUnsigned.exists_digit {negative : Bool} {n : Number} {cs : List Char}
    (h : WritesUnsigned negative n cs) : ∃ c tail, cs = c :: tail ∧ Token.isDigit c = true := by
  obtain ⟨whole, tail, hwhole, rfl⟩ : ∃ whole tail, IsWhole whole ∧ cs = whole ++ tail := by
    cases h with
    | integer hwhole _ => exact ⟨cs, [], hwhole, (List.append_nil cs).symm⟩
    | binary hwhole _ _ _ _ => exact ⟨_, _, hwhole, rfl⟩
  obtain ⟨c, digits, rfl⟩ := List.exists_cons_of_ne_nil hwhole.ne_nil
  exact ⟨c, digits ++ tail, rfl, hwhole.isDigit c List.mem_cons_self⟩

/-- The parts of a number are found one after the other. -/
theorem exists_parts {whole digits fraction exponent : List Char} {power : ℤ}
    (hwhole : IsWhole whole) (hfraction : WritesFraction digits fraction)
    (hexponent : WritesExponent power exponent) (hrest : EndsNumber rest) :
    ∃ behindWhole behindFraction fraction? exponent?,
      wholePart (whole ++ (fraction ++ exponent) ++ rest) = some (whole, behindWhole) ∧
      fractionPart behindWhole = some (fraction?, behindFraction) ∧
      exponentPart behindFraction = some (exponent?, rest) ∧
      fraction?.getD [] = digits ∧ (fraction? = none ↔ fraction = []) ∧
      exponent?.getD 0 = power ∧ (exponent? = none ↔ exponent = []) := by
  have hbehind : ∀ c ∈ (exponent ++ rest).head?, Token.isDigit c = false ∧ c ≠ '.' := by
    intro c hc
    rw [List.head?_append, Option.mem_def, Option.or_eq_some_iff] at hc
    rcases hc with hc | ⟨-, hc⟩
    · rcases hexponent.head? c hc with rfl | rfl <;> decide
    · exact ⟨(hrest c hc).1, (hrest c hc).2.1⟩
  have hbehindWhole : ∀ c ∈ (fraction ++ (exponent ++ rest)).head?, Token.isDigit c = false := by
    intro c hc
    rw [List.head?_append, Option.mem_def, Option.or_eq_some_iff] at hc
    rcases hc with hc | ⟨-, hc⟩
    · rw [hfraction.head? c hc]
      decide
    · exact (hbehind c hc).1
  obtain ⟨fraction?, hfound, hdigits, hnone⟩ := fractionPart_append hfraction hbehind
  obtain ⟨exponent?, hfound', hpower, hnone'⟩ :=
    exponentPart_append hexponent fun c hc ↦ ⟨(hrest c hc).1, (hrest c hc).2.2⟩
  refine ⟨_, _, fraction?, exponent?, ?_, hfound, hfound', hdigits, hnone, hpower, hnone'⟩
  rw [List.append_assoc, List.append_assoc]
  exact wholePart_append hwhole hbehindWhole

/-- **A number is read back**, up to where it ends. -/
theorem unsignedNumber_append {negative : Bool} {n : Number} {cs : List Char}
    (h : WritesUnsigned negative n cs) (hrest : EndsNumber rest) :
    unsignedNumber negative (cs ++ rest) = some (n, rest) := by
  cases h with
  | integer hwhole h =>
    obtain ⟨_, _, fraction?, exponent?, hw, hf, he, -, hnone, -, hnone'⟩ :=
      exists_parts hwhole .absent .absent hrest
    obtain rfl : fraction? = none := hnone.2 rfl
    obtain rfl : exponent? = none := hnone'.2 rfl
    rw [List.append_nil, List.append_nil] at hw
    simp [unsignedNumber, hw, hf, he, h]
  | binary hwhole hfraction hexponent hpart h =>
    obtain ⟨_, _, fraction?, exponent?, hw, hf, he, rfl, hnone, rfl, hnone'⟩ :=
      exists_parts hwhole hfraction hexponent hrest
    rw [← not_and_or, ← hnone, ← hnone'] at hpart
    rcases fraction? with - | digits <;> rcases exponent? with - | power
    · exact absurd ⟨rfl, rfl⟩ hpart
    all_goals
      simp only [unsignedNumber, hw, hf, he, Option.bind_eq_bind, Option.bind_some, h,
        Option.pure_def]

end Numbers

/-! ### Tokens are read back -/

/-- Blanks between tokens are skipped. -/
theorem scan_blanks {blanks : List Char} (h : ∀ c ∈ blanks, isBlank c = true) (rest : List Char) :
    scan (blanks ++ rest) = scan rest := by
  induction blanks with
  | nil => rfl
  | cons c blanks ih =>
    obtain ⟨hc, hblanks⟩ := List.forall_mem_cons.1 h
    rw [List.cons_append, scan, if_pos hc, ih hblanks]

theorem isBlank_of_isDigit {c : Char} (h : Token.isDigit c = true) : isBlank c = false := by
  by_contra hblank
  simp only [isBlank, Bool.not_eq_false, Bool.or_eq_true, beq_iff_eq] at hblank
  rcases hblank with ((rfl | rfl) | rfl) | rfl <;> exact absurd h (by decide)

/-- A digit starts a number. -/
theorem first?_digit {c : Char} (h : Token.isDigit c = true) (rest : List Char) :
    first? c rest =
      (unsignedNumber false (c :: rest)).map fun p ↦ (.scalar (.number p.1), p.2) := by
  unfold first?
  split
  all_goals first | exact absurd h (by decide) | rw [if_pos h]

/-- **A token is read back.** -/
theorem scan_lexeme {t : Token} {cs rest : List Char} (h : Lexeme t cs)
    (hend : ∀ n, t = .scalar (.number n) → EndsNumber rest) :
    scan (cs ++ rest) = (scan rest).cons t := by
  cases h with
  | unsigned h =>
    have hread := unsignedNumber_append h (hend _ rfl)
    obtain ⟨c, tail, rfl, hc⟩ := h.exists_digit
    rw [List.cons_append] at hread ⊢
    refine scan_cons (isBlank_of_isDigit hc) ?_
    rw [first?_digit hc, hread, Option.map_some]
  | negative h =>
    have hread := unsignedNumber_append h (hend _ rfl)
    rw [List.cons_append]
    refine scan_cons rfl ?_
    show (unsignedNumber true _).map _ = _
    rw [hread, Option.map_some]
  | @string s cs h =>
    have hread := stringBody_of_writesChars h rest
    rw [List.cons_append, List.append_assoc]
    refine scan_cons rfl ?_
    show (stringBody _).map _ = _
    rw [List.singleton_append, hread, Option.map_some, String.ofList_toList]
  | openArray | closeArray | openObject | closeObject | comma | colon | null | yes | no =>
    exact scan_cons rfl rfl

/-- **The tokens of a text.** -/
theorem scan_of_writesTokens {ts : List Token} {cs : List Char} (h : WritesTokens ts cs) :
    scan cs = ⟨ts, true⟩ := by
  induction h with
  | @nil blanks hblanks =>
    rw [← List.append_nil blanks, scan_blanks hblanks, scan]
    rfl
  | cons hblanks ht hend _ ih =>
    rw [scan_blanks hblanks, scan_lexeme ht hend, ih]
    rfl

/-! ### Events are read back -/

theorem tokensItems_eq_map (items : List Json) : tokensItems items = items.map tokens := by
  induction items with
  | nil => rfl
  | cons v rest ih => rw [tokensItems, ih, List.map_cons]

theorem tokensFields_eq_map (fields : List (String × Json)) :
    tokensFields fields =
      fields.map fun p ↦ .scalar (.string p.1) :: .colon :: p.2.tokens := by
  induction fields with
  | nil => rfl
  | cons p rest ih => rw [tokensFields, ih, List.map_cons]

theorem itemEvents_eq_flatMap (items : List Json) :
    itemEvents items = items.flatMap valueEvents := by
  induction items with
  | nil => rfl
  | cons v rest ih => rw [itemEvents, ih, List.flatMap_cons]

theorem fieldEvents_eq_flatMap (fields : List (String × Json)) :
    fieldEvents fields = fields.flatMap fun p ↦ .leaf (.string p.1) :: p.2.valueEvents := by
  induction fields with
  | nil => rfl
  | cons p rest ih => rw [fieldEvents, ih, List.flatMap_cons, List.cons_append]

/-- Behind the first of several rows, each has a comma before it. -/
theorem separated_cons (row : List Token) (rows : List (List Token)) :
    separated (row :: rows) = row ++ rows.flatMap fun row ↦ .comma :: row := by
  induction rows generalizing row with
  | nil => simp [separated, List.intercalate_singleton]
  | cons next rows ih =>
    rw [separated, List.intercalate_cons_cons, ← separated, ih, List.flatMap_cons]
    simp

namespace Place

variable {complete : Bool} {places places' after : List Place} {ts : List Token}

/-- A token that the reader accepts adds its events, and reading goes on behind it. -/
theorem run_of_step {t : Token} {events : List (Event Scalar)}
    (h : step places t = some (events, places')) :
    run complete places (t :: ts) = (run complete places' ts).append events := by
  rw [run, h]

/-- A value is due, behind which the machine goes on with `after`. -/
def AwaitsValue (places after : List Place) : Prop :=
  ∀ t, t ≠ .closeArray → step places t = startValue after t

/-- Behind an opening bracket a value may follow. -/
theorem awaitsValue_firstItem : AwaitsValue (firstItem :: after) (itemEnd :: after) := by
  intro t ht
  cases t with
  | closeArray => exact absurd rfl ht
  | openArray | openObject | closeObject | comma | colon | scalar _ => rfl

/-- Wherever the value is due, the machine takes in its tokens and delivers its events. -/
def TakesIn (v : Json) : Prop :=
  ∀ {complete : Bool} {places after : List Place} (ts : List Token), AwaitsValue places after →
    run complete places (v.tokens ++ ts) = (run complete after ts).append v.valueEvents

/-- Items behind the first one, up to the end of the array. -/
theorem run_moreItems {items : List Json} (h : ∀ v ∈ items, TakesIn v) :
    run complete (itemEnd :: after)
        ((items.flatMap fun v ↦ .comma :: v.tokens) ++ .closeArray :: ts) =
      (run complete after ts).append (items.flatMap valueEvents ++ [.closeList]) := by
  induction items with
  | nil => exact run_of_step rfl
  | cons v items ih =>
    obtain ⟨hv, hitems⟩ := List.forall_mem_cons.1 h
    have hcomma : step (itemEnd :: after) .comma = some ([], item :: after) := rfl
    rw [List.flatMap_cons, List.cons_append, List.cons_append, List.append_assoc,
      run_of_step hcomma, hv _ fun _ _ ↦ rfl, ih hitems]
    simp

/-- A field where a key is due. -/
theorem run_field {key : String} {v : Json} (hv : TakesIn v)
    (hkey : step places (.scalar (.string key)) = some ([.leaf (.string key)], colon :: after)) :
    run complete places (.scalar (.string key) :: .colon :: (v.tokens ++ ts)) =
      (run complete (valueEnd :: after) ts).append (.leaf (.string key) :: v.valueEvents) := by
  have hcolon : step (colon :: after) .colon = some ([], value :: after) := rfl
  rw [run_of_step hkey, run_of_step hcolon, hv _ fun _ _ ↦ rfl]
  simp

/-- Fields behind the first one, up to the end of the object. -/
theorem run_moreFields {fields : List (String × Json)} (h : ∀ p ∈ fields, TakesIn p.2) :
    run complete (valueEnd :: after)
        ((fields.flatMap fun p ↦ .comma :: .scalar (.string p.1) :: .colon :: p.2.tokens) ++
          .closeObject :: ts) =
      (run complete after ts).append
        ((fields.flatMap fun p ↦ .leaf (.string p.1) :: p.2.valueEvents) ++ [.closeMap]) := by
  induction fields with
  | nil => exact run_of_step rfl
  | cons p fields ih =>
    obtain ⟨hp, hfields⟩ := List.forall_mem_cons.1 h
    have hcomma : step (valueEnd :: after) .comma = some ([], key :: after) := rfl
    simp only [List.flatMap_cons, List.cons_append, List.append_assoc]
    rw [run_of_step hcomma, run_field hp rfl, ih hfields]
    simp

/-- **The machine takes in any value.** -/
theorem takesIn (v : Json) : TakesIn v := by
  induction v using Json.inductionOn with
  | scalar s =>
    intro complete places after ts hplaces
    exact run_of_step (hplaces _ (by simp))
  | array items ih =>
    intro complete places after ts hplaces
    have hopen : step places .openArray = some ([.openList], firstItem :: after) :=
      hplaces _ (by simp)
    rw [tokens, valueEvents, tokensItems_eq_map, itemEvents_eq_flatMap, List.cons_append,
      List.append_assoc, List.singleton_append, run_of_step hopen]
    rcases items with - | ⟨v, items⟩
    · have hclose : step (firstItem :: after) .closeArray = some ([.closeList], after) := rfl
      exact (congrArg (Reading.append _) (run_of_step hclose)).trans (Reading.append_append _ _ _)
    · obtain ⟨hv, hitems⟩ := List.forall_mem_cons.1 ih
      rw [List.map_cons, separated_cons, List.append_assoc, List.flatMap_map,
        hv _ awaitsValue_firstItem, run_moreItems hitems]
      simp
  | object fields ih =>
    intro complete places after ts hplaces
    have hopen : step places .openObject = some ([.openMap], firstKey :: after) :=
      hplaces _ (by simp)
    rw [tokens, valueEvents, tokensFields_eq_map, fieldEvents_eq_flatMap, List.cons_append,
      List.append_assoc, List.singleton_append, run_of_step hopen]
    rcases fields with - | ⟨p, fields⟩
    · have hclose : step (firstKey :: after) .closeObject = some ([.closeMap], after) := rfl
      exact (congrArg (Reading.append _) (run_of_step hclose)).trans (Reading.append_append _ _ _)
    · obtain ⟨hp, hfields⟩ := List.forall_mem_cons.1 ih
      rw [List.map_cons, separated_cons, List.append_assoc, List.flatMap_map, List.cons_append,
        List.cons_append, run_field hp rfl, run_moreFields hfields]
      simp

end Place

/-- **The events of a text** are those of the value that it writes. -/
theorem events_of_writes {v : Json} {text : String} (h : v.Writes text) :
    events text = ⟨v.valueEvents, true⟩ := by
  have hrun : Place.run true [.root] (v.tokens ++ []) = (Place.run true [] []).append v.valueEvents :=
    Place.takesIn v [] fun _ _ ↦ rfl
  rw [List.append_nil] at hrun
  rw [events, scan_of_writesTokens h, hrun]
  simp [Place.run, Reading.append]

end SchemaCodec.Json
