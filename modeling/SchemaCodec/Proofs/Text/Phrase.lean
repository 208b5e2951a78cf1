import SchemaCodec.TypeExpr.Basic
import SchemaCodec.Proofs.Json.Spelling

/-!
# Phrases

Both texts that are emitted for a type, its codec and its alias, are phrases: words, scalars, lists
in brackets that may follow a word, and members in braces. `Phrase.chars` writes a phrase; only the
separator between members differs between the two. A well-formed phrase can be read off its
characters wherever a delimiter follows (`Phrase.separable`), whatever strings stand in it.

The proof looks at the word that a phrase starts with (`Phrase.lead`) and at the character behind it
(`Phrase.mark`), which together decide the kind of the phrase, and then compares item by item.
-/

namespace SchemaCodec.Text

/-! ### Words and keys -/

/-- A word can be told from the delimiter behind it by any single character. -/
theorem not_isDelimiter_of_isWordPart {c : Char} (h : isWordPart c = true) :
    isDelimiter c = false := by
  by_contra hc
  rw [Bool.not_eq_false] at hc
  exact Bool.noConfusion (h.symm.trans (not_isWordPart_of_isDelimiter hc))

/-- The words that are scalars. -/
def constants : List String :=
  ["null", "true", "false"]

/-- Whether a text is a word that is neither a number nor a constant. -/
def isWord (w : String) : Bool :=
  w.toList.all isWordPart && w.toList.head?.any Identifier.isStart && !constants.contains w

theorem isWordPart_of_isWord {w : String} (h : isWord w = true) :
    ∀ c ∈ w.toList, isWordPart c = true := by
  simp only [isWord, Bool.and_eq_true, List.all_eq_true] at h
  exact h.1.1

/-- A word starts as an identifier does, so it is never taken for a number. -/
theorem exists_isStart_of_isWord {w : String} (h : isWord w = true) :
    ∃ c ∈ w.toList.head?, Identifier.isStart c = true := by
  simp only [isWord, Bool.and_eq_true, Option.any_eq_true] at h
  obtain ⟨c, hc, hstart⟩ := h.1.2
  exact ⟨c, hc, hstart⟩

/-- No scalar is spelled like a word. -/
theorem text_ne_of_isWord {w : String} (h : isWord w = true) (s : Json.Scalar) : s.text ≠ w := by
  rintro rfl
  rcases s with - | (- | -) | n | t
  · exact absurd h (by decide)
  · exact absurd h (by decide)
  · exact absurd h (by decide)
  · obtain ⟨c, hc, hstart⟩ := exists_isStart_of_isWord h
    exact n.text_ne_of_isStart hc hstart rfl
  · exact absurd (isWordPart_of_isWord h '"' (by simp [Json.Scalar.text, Json.quote])) (by decide)

/-- The shape of an identifier: a start and parts behind it. -/
theorem exists_cons_of_isIdentifier {w : String} (h : Identifier.isIdentifier w = true) :
    ∃ c rest, w.toList = c :: rest ∧ Identifier.isStart c = true ∧
      ∀ x ∈ rest, Identifier.isPart x = true := by
  rw [Identifier.isIdentifier] at h
  rcases hw : w.toList with - | ⟨c, rest⟩ <;> rw [hw] at h
  · exact absurd h (by decide)
  · rw [Identifier.isSpelling, Bool.and_eq_true, List.all_eq_true] at h
    exact ⟨c, rest, rfl, h⟩

/-- Every character of an identifier may stand inside one. -/
theorem isPart_of_isIdentifier {w : String} (h : Identifier.isIdentifier w = true) :
    ∀ c ∈ w.toList, Identifier.isPart c = true := by
  obtain ⟨c, rest, hw, hstart, hpart⟩ := exists_cons_of_isIdentifier h
  rw [hw]
  exact List.forall_mem_cons.2 ⟨by rw [Identifier.isPart, hstart, Bool.true_or], hpart⟩

theorem isWordPart_of_isPart {c : Char} (h : Identifier.isPart c = true) : isWordPart c = true := by
  rw [isWordPart, h]
  rfl

theorem isWordPart_of_isStart {c : Char} (h : Identifier.isStart c = true) :
    isWordPart c = true :=
  isWordPart_of_isPart (by rw [Identifier.isPart, h, Bool.true_or])

theorem isWordPart_of_isIdentifier {w : String} (h : Identifier.isIdentifier w = true) :
    ∀ c ∈ w.toList, isWordPart c = true :=
  fun c hc ↦ isWordPart_of_isPart (isPart_of_isIdentifier h c hc)

/-- Names of declarations are words: what is reserved includes the spelled constants. -/
theorem isWord_of_isDeclarationName {w : String} (h : Identifier.isDeclarationName w = true) :
    isWord w = true := by
  rw [Identifier.isDeclarationName, Bool.and_eq_true, Bool.not_eq_true'] at h
  obtain ⟨hidentifier, hreserved⟩ := h
  have hall : w.toList.all isWordPart = true :=
    List.all_eq_true.2 (isWordPart_of_isIdentifier hidentifier)
  obtain ⟨c, rest, hw, hstart, -⟩ := exists_cons_of_isIdentifier hidentifier
  have hconstant : constants.contains w = false := by
    have hsub : constants ⊆ Identifier.reservedWords := by decide
    rw [← Bool.not_eq_true, List.contains_iff_mem] at hreserved ⊢
    exact fun hmem ↦ hreserved (hsub hmem)
  rw [isWord, hall, hconstant, hw]
  simpa using hstart

/-- A property key can be told from what follows it. -/
theorem propertyKey_append_inj {key key' : String} {rest rest' : List Char} (hrest : EndsWord rest)
    (hrest' : EndsWord rest')
    (h : (Identifier.propertyKey key).toList ++ rest =
      (Identifier.propertyKey key').toList ++ rest') : key = key' ∧ rest = rest' := by
  have hquote {w s : String} {rest rest' : List Char} (hw : Identifier.isIdentifier w = true) :
      w.toList ++ rest ≠ (Json.quote s).toList ++ rest' := by
    intro h
    obtain ⟨c, cs, hcs, hstart, -⟩ := exists_cons_of_isIdentifier hw
    rw [hcs, Json.quote, String.toList_ofList] at h
    rw [(List.cons.inj h).1] at hstart
    exact absurd hstart (by decide)
  by_cases hkey : Identifier.isIdentifier key = true <;>
    by_cases hkey' : Identifier.isIdentifier key' = true <;>
    simp only [Identifier.propertyKey, hkey, hkey', if_true, if_false, Bool.false_eq_true] at h
  · obtain ⟨hword, hrest⟩ := run_append_inj (isWordPart_of_isIdentifier hkey)
      (isWordPart_of_isIdentifier hkey') hrest hrest' h
    exact ⟨String.toList_inj.1 hword, hrest⟩
  · exact absurd h (hquote hkey)
  · exact absurd h.symm (hquote hkey')
  · exact Json.quote_append_inj h

/-- A key never starts with a delimiter. -/
theorem opens_propertyKey (key : String) : Opens (Identifier.propertyKey key).toList := by
  by_cases hkey : Identifier.isIdentifier key = true
  · obtain ⟨c, cs, hcs, hstart, -⟩ := exists_cons_of_isIdentifier hkey
    refine ⟨c, ?_, not_isDelimiter_of_isWordPart (isWordPart_of_isStart hstart)⟩
    rw [Identifier.propertyKey, if_pos hkey, hcs]
    rfl
  · refine ⟨'"', ?_, rfl⟩
    rw [Identifier.propertyKey, if_neg hkey, Json.quote, String.toList_ofList]
    rfl

/-! ### Brackets -/

/-- How the items of a list are enclosed and separated. -/
inductive Bracket where
  | round
  | square
  | angle
  /-- Alternatives. -/
  | either
  /-- Joint requirements. -/
  | both
deriving DecidableEq

namespace Bracket

/-- The character before the items. -/
def opening : Bracket → Char
  | .square => '['
  | .angle => '<'
  | _ => '('

/-- The character behind the items. -/
def closing : Bracket → Char
  | .square => ']'
  | .angle => '>'
  | _ => ')'

/-- What stands between two items. -/
def separator : Bracket → List Char
  | .either => [' ', '|', ' ']
  | .both => [' ', '&', ' ']
  | _ => [',', ' ']

/-- Whether no word comes before the bracket. -/
def isBare : Bracket → Bool
  | .round | .angle => false
  | _ => true

/-- The least number of items. -/
def least : Bracket → ℕ
  | .either | .both => 2
  | _ => 0

/-- The separator and the closing character of a bracket are told apart by their first character. -/
theorem punctuation (b : Bracket) : Punctuation b.separator [b.closing] := by
  cases b <;> exact .of_cons rfl rfl (by decide)

/-- Brackets that open in the same way differ at most in their separators. -/
theorem eq_or_separator_ne {b b' : Bracket} (hopening : b.opening = b'.opening)
    (hbare : b.isBare = b'.isBare) :
    b = b' ∨ b.least = 2 ∧ b'.least = 2 ∧
      ∀ rest rest', b.separator ++ rest ≠ b'.separator ++ rest' := by
  cases b <;> cases b' <;> simp_all [opening, isBare, least, separator]

end Bracket

/-! ### Phrases -/

/-- A phrase of an emitted text. -/
inductive Phrase where
  | word (w : String)
  | scalar (s : Json.Scalar)
  /-- Items in brackets behind a word, which may be empty. -/
  | list (head : String) (bracket : Bracket) (items : List Phrase)
  /-- Members in braces. -/
  | members (fields : List (Field Phrase))

namespace Phrase

variable {sep : List Char}

/-- Texts of members in braces. -/
def enclose (sep : List Char) : List (List Char) → List Char
  | [] => ['\x7b', '\x7d']
  | texts => '\x7b' :: ' ' :: (sep.intercalate texts ++ [' ', '\x7d'])

/-- A key with its mark of optionality and its colon. -/
def keyChars (name : String) (optional : Bool) : List Char :=
  (Identifier.propertyKey name).toList ++ ((if optional then ['?'] else []) ++ [':', ' '])

mutual

/-- The characters of a phrase, with `sep` between members. -/
def chars (sep : List Char) : Phrase → List Char
  | .word w => w.toList
  | .scalar s => s.text.toList
  | .list head b items =>
    head.toList ++ b.opening :: (b.separator.intercalate (charsItems sep items) ++ [b.closing])
  | .members fields => enclose sep (charsFields sep fields)

/-- The characters of items. -/
def charsItems (sep : List Char) : List Phrase → List (List Char)
  | [] => []
  | p :: rest => p.chars sep :: charsItems sep rest

/-- The characters of members. -/
def charsFields (sep : List Char) : List (Field Phrase) → List (List Char)
  | [] => []
  | ⟨name, p, optional⟩ :: rest => (keyChars name optional ++ p.chars sep) :: charsFields sep rest

end

/-- The characters of a member. -/
def fieldChars (sep : List Char) (f : Field Phrase) : List Char :=
  keyChars f.name f.optional ++ f.type.chars sep

theorem charsItems_eq_map (items : List Phrase) : charsItems sep items = items.map (chars sep) := by
  induction items with
  | nil => rfl
  | cons p items ih => rw [charsItems, ih, List.map_cons]

theorem charsFields_eq_map (fields : List (Field Phrase)) :
    charsFields sep fields = fields.map (fieldChars sep) := by
  induction fields with
  | nil => rfl
  | cons f fields ih => rw [charsFields, ih, List.map_cons, fieldChars]

/-- The characters of a list, with its items as a joined list. -/
theorem chars_list (head : String) (b : Bracket) (items : List Phrase) :
    chars sep (.list head b items) =
      head.toList ++ b.opening :: joined (chars sep) b.separator [b.closing] items := by
  rw [chars, charsItems_eq_map, joined]

theorem chars_members_nil : chars sep (.members []) = ['\x7b', '\x7d'] := rfl

/-- The characters of members, with the members as a joined list. -/
theorem chars_members_cons (f : Field Phrase) (fields : List (Field Phrase)) :
    chars sep (.members (f :: fields)) =
      '\x7b' :: ' ' :: joined (fieldChars sep) sep [' ', '\x7d'] (f :: fields) := by
  rw [chars, charsFields_eq_map, joined, List.map_cons, enclose]
  exact List.cons_ne_nil _ _

/-- Phrases that can be read off their characters. -/
inductive WellFormed : Phrase → Prop
  | word {w : String} (h : isWord w = true) : WellFormed (.word w)
  | scalar (s : Json.Scalar) : WellFormed (.scalar s)
  | list {head : String} {b : Bracket} {items : List Phrase}
      (hhead : head.toList.all isWordPart = true) (hbare : head = "" ↔ b.isBare = true)
      (hleast : b.least ≤ items.length) (hitems : ∀ p ∈ items, WellFormed p) :
      WellFormed (.list head b items)
  | members {fields : List (Field Phrase)} (h : ∀ f ∈ fields, WellFormed f.type) :
      WellFormed (.members fields)

/-! ### Leads and marks -/

/-- The word at the front of a phrase; it may be empty. -/
def lead : Phrase → List Char
  | .word w => w.toList
  | .scalar (.string _) => []
  | .scalar s => s.text.toList
  | .list head _ _ => head.toList
  | .members _ => []

/-- What follows the lead. -/
def body (sep : List Char) : Phrase → List Char
  | .word _ => []
  | .scalar (.string t) => (Json.quote t).toList
  | .scalar _ => []
  | .list _ b items => b.opening :: joined (chars sep) b.separator [b.closing] items
  | .members fields => chars sep (.members fields)

/-- The character behind the lead, if the phrase goes on there. -/
def mark : Phrase → Option Char
  | .word _ => none
  | .scalar (.string _) => some '"'
  | .scalar _ => none
  | .list _ b _ => some b.opening
  | .members _ => some '\x7b'

/-- A phrase is its lead and its body. -/
theorem chars_eq_lead_append_body (p : Phrase) : chars sep p = p.lead ++ p.body sep := by
  rcases p with w | (- | b | n | t) | ⟨head, b, items⟩ | fields
  case list => exact chars_list head b items
  all_goals simp [chars, lead, body, Json.Scalar.text]

/-- The mark is the first character of the body. -/
theorem head?_body (p : Phrase) : (p.body sep).head? = p.mark := by
  rcases p with w | (- | b | n | t) | ⟨head, b, items⟩ | (- | ⟨f, fields⟩)
  case scalar.string => simp [body, mark, Json.quote]
  case members.cons => rw [body, chars_members_cons]; rfl
  all_goals rfl

/-- A mark ends the lead and cannot be a delimiter behind the phrase. -/
theorem not_isDelimiter_of_mark {p : Phrase} :
    ∀ c ∈ p.mark, isDelimiter c = false ∧ isWordPart c = false := by
  intro c hc
  rcases p with w | (- | b | n | t) | ⟨head, b | b | b | b | b, items⟩ | fields
  all_goals
    first
    | exact absurd hc (Option.not_mem_none c)
    | obtain rfl := Option.some.inj hc
      exact ⟨rfl, rfl⟩

/-- The lead of a readable phrase consists of word characters. -/
theorem isWordPart_lead {p : Phrase} (hp : p.WellFormed) : ∀ c ∈ p.lead, isWordPart c = true := by
  cases hp with
  | word h => exact isWordPart_of_isWord h
  | scalar s =>
    rcases s with - | b | n | t
    case string => exact List.forall_mem_nil _
    all_goals exact Json.Scalar.isWordPart_text (by simp)
  | list hhead => exact List.all_eq_true.1 hhead
  | members => exact List.forall_mem_nil _

/-- The lead ends where the body, or what follows the phrase, begins. -/
theorem endsWord_body {p : Phrase} {rest : List Char} (hrest : Delimited rest) :
    EndsWord (p.body sep ++ rest) := by
  intro c hc
  rw [List.head?_append, head?_body] at hc
  rcases hmark : p.mark with - | c'
  · rw [hmark] at hc
    exact hrest.endsWord c hc
  · rw [hmark] at hc
    exact (not_isDelimiter_of_mark c (hmark.trans hc)).2

/-- Phrases with the same characters have the same lead and the same mark. -/
theorem lead_mark_eq {p q : Phrase} {rest rest' : List Char} (hp : p.WellFormed)
    (hq : q.WellFormed) (hrest : Delimited rest) (hrest' : Delimited rest')
    (h : chars sep p ++ rest = chars sep q ++ rest') :
    p.lead = q.lead ∧ p.mark = q.mark ∧ p.body sep ++ rest = q.body sep ++ rest' := by
  rw [chars_eq_lead_append_body, chars_eq_lead_append_body, List.append_assoc,
    List.append_assoc] at h
  obtain ⟨hlead, hbody⟩ := run_append_inj (isWordPart_lead hp) (isWordPart_lead hq)
    (endsWord_body hrest) (endsWord_body hrest') h
  have hhead := congrArg List.head? hbody
  rw [List.head?_append, List.head?_append, head?_body, head?_body] at hhead
  refine ⟨hlead, ?_, hbody⟩
  -- a phrase that goes on does so with no delimiter
  have hgoes {p : Phrase} {c : Char} {rest : List Char} (hrest : Delimited rest)
      (hc : p.mark = some c) : rest.head? ≠ some c := by
    intro hmem
    exact Bool.noConfusion ((hrest c hmem).symm.trans (not_isDelimiter_of_mark c hc).1)
  rcases hmark : p.mark with - | c <;> rcases hmark' : q.mark with - | c' <;>
    rw [hmark, hmark'] at hhead
  · exact absurd hhead (hgoes hrest hmark')
  · exact absurd hhead.symm (hgoes hrest' hmark)
  · exact hhead

theorem mark_scalar_ne_opening (s : Json.Scalar) (b : Bracket) :
    mark (.scalar s) ≠ some b.opening := by
  cases s <;> cases b <;> simp [mark, Bracket.opening]

theorem mark_scalar_ne_brace (s : Json.Scalar) : mark (.scalar s) ≠ some '\x7b' := by
  cases s <;> simp [mark]

/-- A scalar that is no string is all lead. -/
theorem lead_scalar {s : Json.Scalar} (h : mark (.scalar s) = none) :
    lead (.scalar s) = s.text.toList := by
  cases s with
  | string t => exact absurd h (Option.some_ne_none _)
  | _ => rfl

theorem opening_ne_brace (b : Bracket) : b.opening ≠ '\x7b' := by
  cases b <;> decide

/-- A readable phrase without a lead goes on with a mark, so it is not empty. -/
theorem mark_ne_none {p : Phrase} (hp : p.WellFormed) (h : p.lead = []) : p.mark ≠ none := by
  cases hp with
  | word hw =>
    obtain ⟨c, hc, -⟩ := exists_isStart_of_isWord hw
    rw [lead] at h
    rw [h] at hc
    exact absurd hc (Option.not_mem_none c)
  | scalar s =>
    intro hmark
    rw [lead_scalar hmark] at h
    exact s.text_ne_empty h
  | list => exact Option.some_ne_none _
  | members => exact Option.some_ne_none _

/-- A readable phrase does not start with a delimiter. -/
theorem opens_chars {p : Phrase} (hp : p.WellFormed) : Opens (chars sep p) := by
  rw [chars_eq_lead_append_body]
  rcases hlead : p.lead with - | ⟨c, cs⟩
  · obtain ⟨c, hc⟩ := Option.ne_none_iff_exists'.1 (mark_ne_none hp hlead)
    exact ⟨c, (head?_body p).trans hc, (not_isDelimiter_of_mark c hc).1⟩
  · refine ⟨c, rfl, not_isDelimiter_of_isWordPart (isWordPart_lead hp c ?_)⟩
    exact hlead ▸ List.mem_cons_self

theorem opens_fieldChars (f : Field Phrase) : Opens (fieldChars sep f) := by
  rw [fieldChars, keyChars, List.append_assoc]
  exact (opens_propertyKey f.name).append _

/-! ### Unique readability -/

section Parts

variable {rest rest' : List Char}

/-- Enclosed items show how they are separated. -/
theorem bracket_eq {b b' : Bracket} {items items' : List Phrase}
    (hopening : b.opening = b'.opening) (hbare : b.isBare = b'.isBare)
    (hleast : b.least ≤ items.length) (hleast' : b'.least ≤ items'.length)
    (hitems : ∀ p ∈ items, ∀ q ∈ items', Separable (chars sep) p q)
    (h : joined (chars sep) b.separator [b.closing] items ++ rest =
      joined (chars sep) b'.separator [b'.closing] items' ++ rest') : b = b' := by
  have hcons {ps : List Phrase} (hlen : 2 ≤ ps.length) : ∃ p q ps', ps = p :: q :: ps' :=
    match ps, hlen with
    | p :: q :: ps', _ => ⟨p, q, ps', rfl⟩
  rcases Bracket.eq_or_separator_ne hopening hbare with hb | ⟨htwo, htwo', hne⟩
  · exact hb
  · obtain ⟨p, p₂, items, rfl⟩ := hcons (htwo ▸ hleast)
    obtain ⟨q, q₂, items', rfl⟩ := hcons (htwo' ▸ hleast')
    rw [joined_cons, joined_cons, List.append_assoc, List.append_assoc] at h
    obtain ⟨-, htail⟩ := hitems p List.mem_cons_self q List.mem_cons_self
      (b.punctuation.delimited_joinedTail _ _) (b'.punctuation.delimited_joinedTail _ _) h
    rw [joinedTail, joinedTail, List.append_assoc, List.append_assoc] at htail
    exact absurd htail (hne _ _)

/-- A member is separable if its value is. -/
theorem separable_field {f g : Field Phrase} (h : Separable (chars sep) f.type g.type) :
    Separable (fieldChars sep) f g := by
  have hends (optional : Bool) (rest : List Char) :
      EndsWord ((if optional then ['?'] else []) ++ ([':', ' '] ++ rest)) := by
    intro c hc
    cases optional <;> (obtain rfl := Option.some.inj hc; rfl)
  intro rest rest' hrest hrest' heq
  obtain ⟨name, p, optional⟩ := f
  obtain ⟨name', q, optional'⟩ := g
  simp only [fieldChars, keyChars, List.append_assoc] at heq
  obtain ⟨rfl, htail⟩ := propertyKey_append_inj (hends _ _) (hends _ _) heq
  obtain rfl : optional = optional' := by
    cases optional <;> cases optional' <;>
      first | rfl | exact absurd (List.cons.inj htail).1 (by decide)
  obtain ⟨rfl, hrest⟩ := h hrest hrest' (List.append_cancel_left (List.append_cancel_left htail))
  exact ⟨rfl, hrest⟩

/-- Members in braces end where their brace closes. -/
theorem members_append_inj (hsep : Punctuation sep [' ', '\x7d'])
    {fields fields' : List (Field Phrase)}
    (hfields : ∀ f ∈ fields, ∀ g ∈ fields', Separable (chars sep) f.type g.type)
    (h : chars sep (.members fields) ++ rest = chars sep (.members fields') ++ rest') :
    fields = fields' ∧ rest = rest' := by
  match fields, fields' with
  | [], [] => exact ⟨rfl, List.append_cancel_left h⟩
  | [], g :: fields' =>
    rw [chars_members_nil, chars_members_cons] at h
    exact absurd (List.cons.inj (List.cons.inj h).2).1 (by decide)
  | f :: fields, [] =>
    rw [chars_members_nil, chars_members_cons] at h
    exact absurd (List.cons.inj (List.cons.inj h).2).1 (by decide)
  | f :: fields, g :: fields' =>
    rw [chars_members_cons, chars_members_cons] at h
    exact joined_append_inj hsep (fun f hf g hg ↦ separable_field (hfields f hf g hg))
      (fun f _ ↦ opens_fieldChars f) (fun g _ ↦ opens_fieldChars g)
      (List.cons.inj (List.cons.inj h).2).2

end Parts

/-- **Unique readability**: followed by a delimiter, a phrase can be read off its characters. -/
theorem separable (hsep : Punctuation sep [' ', '\x7d']) {p q : Phrase} (hp : p.WellFormed)
    (hq : q.WellFormed) : Separable (chars sep) p q := by
  induction hp generalizing q with
  | word hw =>
    intro rest rest' hrest hrest' h
    obtain ⟨hlead, hmark, hbody⟩ := lead_mark_eq (.word hw) hq hrest hrest' h
    cases hq with
    | word hw' => exact ⟨congrArg _ (String.toList_inj.1 hlead), hbody⟩
    | scalar s =>
      rw [lead_scalar hmark.symm] at hlead
      exact absurd (String.toList_inj.1 hlead).symm (text_ne_of_isWord hw s)
    | list => exact absurd hmark.symm (Option.some_ne_none _)
    | members => exact absurd hmark.symm (Option.some_ne_none _)
  | scalar s =>
    intro rest rest' hrest hrest' h
    obtain ⟨hlead, hmark, -⟩ := lead_mark_eq (.scalar s) hq hrest hrest' h
    cases hq with
    | word hw =>
      rw [lead_scalar hmark] at hlead
      exact absurd (String.toList_inj.1 hlead) (text_ne_of_isWord hw s)
    | scalar s' =>
      obtain ⟨rfl, hrest⟩ := Json.Scalar.separable s s' hrest hrest' h
      exact ⟨rfl, hrest⟩
    | list => exact absurd hmark (mark_scalar_ne_opening s _)
    | members => exact absurd hmark (mark_scalar_ne_brace s)
  | @list head b items hhead hbare hleast hitems ih =>
    intro rest rest' hrest hrest' h
    obtain ⟨hlead, hmark, hbody⟩ :=
      lead_mark_eq (.list hhead hbare hleast hitems) hq hrest hrest' h
    cases hq with
    | word => exact absurd hmark (Option.some_ne_none _)
    | scalar s => exact absurd hmark.symm (mark_scalar_ne_opening s b)
    | @list head' b' items' hhead' hbare' hleast' hitems' =>
      obtain rfl : head = head' := String.toList_inj.1 hlead
      have hseparable : ∀ p ∈ items, ∀ q ∈ items', Separable (chars sep) p q :=
        fun p hp q hq ↦ ih p hp (hitems' q hq)
      have hbare_eq : b.isBare = b'.isBare := Bool.eq_iff_iff.2 (hbare.symm.trans hbare')
      have hjoined := (List.cons.inj hbody).2
      obtain rfl : b = b' :=
        bracket_eq (Option.some.inj hmark) hbare_eq hleast hleast' hseparable hjoined
      obtain ⟨rfl, hrest⟩ := joined_append_inj b.punctuation hseparable
        (fun p hp ↦ opens_chars (hitems p hp)) (fun q hq ↦ opens_chars (hitems' q hq)) hjoined
      exact ⟨rfl, hrest⟩
    | members => exact absurd (Option.some.inj hmark) (opening_ne_brace b)
  | @members fields hfields ih =>
    intro rest rest' hrest hrest' h
    obtain ⟨-, hmark, -⟩ := lead_mark_eq (.members hfields) hq hrest hrest' h
    cases hq with
    | word => exact absurd hmark (Option.some_ne_none _)
    | scalar s => exact absurd hmark.symm (mark_scalar_ne_brace s)
    | @list head b => exact absurd (Option.some.inj hmark).symm (opening_ne_brace b)
    | @members fields' hfields' =>
      obtain ⟨rfl, hrest⟩ :=
        members_append_inj hsep (fun f hf g hg ↦ ih f hf (hfields' g hg)) h
      exact ⟨rfl, hrest⟩

/-- A whole text is the text of one phrase. -/
theorem chars_inj (hsep : Punctuation sep [' ', '\x7d']) {p q : Phrase} (hp : p.WellFormed)
    (hq : q.WellFormed) (h : chars sep p = chars sep q) : p = q := by
  have hnil : Delimited [] := fun c hc ↦ absurd hc (Option.not_mem_none c)
  exact (separable hsep hp hq hnil hnil (congrArg (· ++ []) h)).1

end Phrase

end SchemaCodec.Text
