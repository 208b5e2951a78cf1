import SchemaCodec.Proofs.Text.Phrase

/-!
# Texts that stay on their line

A text is *unbroken* when it has no control character below the blank, line breaks included. Strings
reach an emitted text by three routes: in quotes, where every control character is escaped; bare, if
they are identifiers; and as the name of a declaration, which is a word. None of them lets a break
through, so a well-formed phrase is unbroken whatever strings stand in it
(`Phrase.WellFormed.unbroken_chars`).
-/

namespace SchemaCodec.Text

/-- No character stands below the blank. -/
def Unbroken (cs : List Char) : Prop :=
  ∀ c ∈ cs, 0x20 ≤ c.toNat

instance (cs : List Char) : Decidable (Unbroken cs) :=
  List.decidableBAll (fun c : Char ↦ 0x20 ≤ c.toNat) cs

@[simp] theorem unbroken_nil : Unbroken [] :=
  List.forall_mem_nil _

@[simp] theorem unbroken_cons_iff {c : Char} {cs : List Char} :
    Unbroken (c :: cs) ↔ 0x20 ≤ c.toNat ∧ Unbroken cs :=
  List.forall_mem_cons

@[simp] theorem unbroken_append_iff {cs ds : List Char} :
    Unbroken (cs ++ ds) ↔ Unbroken cs ∧ Unbroken ds :=
  List.forall_mem_append

/-- An unbroken text stays on its line. -/
theorem Unbroken.newline_not_mem {cs : List Char} (h : Unbroken cs) : '\n' ∉ cs :=
  fun hmem ↦ absurd (h '\n' hmem) (by decide)

/-- Joining unbroken texts with an unbroken separator breaks nothing. -/
theorem unbroken_intercalate {sep : List Char} (hsep : Unbroken sep) {texts : List (List Char)}
    (h : ∀ text ∈ texts, Unbroken text) : Unbroken (sep.intercalate texts) := by
  induction texts with
  | nil => exact unbroken_nil
  | cons text texts ih =>
    obtain ⟨htext, htexts⟩ := List.forall_mem_cons.1 h
    cases texts with
    | nil => rwa [List.intercalate_singleton]
    | cons text' texts =>
      rw [List.intercalate_cons_cons, unbroken_append_iff, unbroken_append_iff]
      exact ⟨⟨htext, hsep⟩, ih htexts⟩

/-! ### Words -/

/-- No character of a word is a control character. -/
theorem le_toNat_of_isWordPart {c : Char} (h : isWordPart c = true) : 0x20 ≤ c.toNat := by
  have hle {a : Char} (ha : a ≤ c) (hlow : 0x20 ≤ a.toNat) : 0x20 ≤ c.toNat :=
    Nat.le_trans hlow ha
  simp only [isWordPart, Identifier.isPart, Identifier.isStart, Bool.or_eq_true,
    decide_eq_true_eq, beq_iff_eq] at h
  rcases h with (((((((h | h) | rfl) | rfl) | h) | rfl) | rfl) | rfl)
  · exact hle h.1 (by decide)
  · exact hle h.1 (by decide)
  · decide
  · decide
  · exact hle h.1 (by decide)
  · decide
  · decide
  · decide

/-- A word is unbroken. -/
theorem unbroken_of_isWord {w : String} (h : isWord w = true) : Unbroken w.toList :=
  fun c hc ↦ le_toNat_of_isWordPart (isWordPart_of_isWord h c hc)

/-- An identifier is unbroken. -/
theorem unbroken_of_isIdentifier {w : String} (h : Identifier.isIdentifier w = true) :
    Unbroken w.toList :=
  fun c hc ↦ le_toNat_of_isWordPart (isWordPart_of_isIdentifier h c hc)

/-! ### Strings -/

theorem le_toNat_hexDigit : ∀ n < 16, 0x20 ≤ (Json.hexDigit n).toNat := by
  decide

/-- A written character is above the control characters, since those are escaped. -/
theorem unbroken_escapeChar (c : Char) : Unbroken (Json.escapeChar c) := by
  rw [Json.escapeChar]
  split_ifs with _ _ _ _ _ _ _ hcontrol
  · decide
  · decide
  · decide
  · decide
  · decide
  · decide
  · decide
  · have hhigh := le_toNat_hexDigit (c.toNat / 16) (by omega)
    have hlow := le_toNat_hexDigit (c.toNat % 16) (by omega)
    simp [hhigh, hlow]
  · simp only [unbroken_cons_iff, unbroken_nil, and_true]
    omega

/-- A quoted text is unbroken whatever it quotes, since control characters are escaped. -/
theorem unbroken_quote (s : String) : Unbroken (Json.quote s).toList := by
  have hbody : Unbroken (s.toList.flatMap Json.escapeChar) := by
    intro c hc
    obtain ⟨a, -, ha⟩ := List.mem_flatMap.1 hc
    exact unbroken_escapeChar a c ha
  simp [Json.quote, hbody]

/-- A key is unbroken, bare or quoted. -/
theorem unbroken_propertyKey (key : String) : Unbroken (Identifier.propertyKey key).toList := by
  rw [Identifier.propertyKey]
  split
  · next h => exact unbroken_of_isIdentifier h
  · exact unbroken_quote key

/-- The text of a scalar is unbroken. -/
theorem unbroken_scalar (s : Json.Scalar) : Unbroken s.text.toList := by
  by_cases hstring : ∃ t, s = .string t
  · obtain ⟨t, rfl⟩ := hstring
    exact unbroken_quote t
  · have hword := Json.Scalar.isWordPart_text (not_exists.1 hstring)
    exact fun c hc ↦ le_toNat_of_isWordPart (hword c hc)

/-! ### Phrases -/

theorem unbroken_keyChars (key : String) (optional : Bool) :
    Unbroken (Phrase.keyChars key optional) := by
  rw [Phrase.keyChars, unbroken_append_iff]
  refine ⟨unbroken_propertyKey key, ?_⟩
  cases optional <;> decide

/-- Members in braces are unbroken if the members are. -/
theorem unbroken_enclose {sep : List Char} (hsep : Unbroken sep) {texts : List (List Char)}
    (h : ∀ text ∈ texts, Unbroken text) : Unbroken (Phrase.enclose sep texts) := by
  cases texts with
  | nil =>
    show Unbroken ['\x7b', '\x7d']
    decide
  | cons text texts => simp [Phrase.enclose, unbroken_intercalate hsep h]

/-- **A well-formed phrase stays on its line.** -/
theorem Phrase.WellFormed.unbroken_chars {sep : List Char} (hsep : Unbroken sep) {p : Phrase}
    (hp : p.WellFormed) : Unbroken (p.chars sep) := by
  induction hp with
  | word h => exact unbroken_of_isWord h
  | scalar s => exact unbroken_scalar s
  | @list head b items hhead _ _ _ ih =>
    have hword : Unbroken head.toList :=
      fun c hc ↦ le_toNat_of_isWordPart (List.all_eq_true.1 hhead c hc)
    have hitems : Unbroken (b.separator.intercalate (Phrase.charsItems sep items)) := by
      rw [Phrase.charsItems_eq_map]
      exact unbroken_intercalate (by cases b <;> decide) (List.forall_mem_map.2 ih)
    have hbracket : 0x20 ≤ b.opening.toNat ∧ 0x20 ≤ b.closing.toNat := by
      cases b <;> decide
    simp [Phrase.chars, hword, hitems, hbracket]
  | @members fields _ ih =>
    rw [Phrase.chars, Phrase.charsFields_eq_map]
    refine unbroken_enclose hsep (List.forall_mem_map.2 fun f hf ↦ ?_)
    rw [Phrase.fieldChars, unbroken_append_iff]
    exact ⟨unbroken_keyChars f.name f.optional, ih f hf⟩

end SchemaCodec.Text
