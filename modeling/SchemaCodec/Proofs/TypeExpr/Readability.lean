import SchemaCodec.TypeExpr.Printer
import SchemaCodec.Proofs.Codec.Readability

/-!
# The text of an alias determines the codec

The right-hand side of a type alias is a phrase as well (`TypeExpr.phrase`). It says less than the
type: unions and intersections of one arm have disappeared, and a literal object looks like an
interface. Still it says enough to put the codec of the type together (`CodecExpr.ofAlias`), so
types with the same alias text have the same codec text, and the two texts that are emitted for a
declaration cannot drift apart.
-/

namespace SchemaCodec

open Text

namespace TypeExpr

/-! ### Aliases as phrases -/

mutual

/-- The phrase of the type of exactly one JSON value. -/
def literalPhrase : Json → Phrase
  | .scalar s => .scalar s
  | .array items => .list "" .square (literalPhraseItems items)
  | .object fields => .members (literalPhraseFields fields)

/-- The phrases of array items. -/
def literalPhraseItems : List Json → List Phrase
  | [] => []
  | v :: rest => literalPhrase v :: literalPhraseItems rest

/-- The members of fields. -/
def literalPhraseFields : List (String × Json) → List (Field Phrase)
  | [] => []
  | (key, v) :: rest => ⟨key, literalPhrase v, false⟩ :: literalPhraseFields rest

end

/-- Arms in a bracket, or a word for none. -/
def joinPhrases (b : Bracket) (empty : String) : List Phrase → Phrase
  | [] => .word empty
  | [only] => only
  | arms => .list "" b arms

mutual

/-- The phrase of a type. -/
def phrase : TypeExpr → Phrase
  | .null => .scalar .null
  | .boolean => .word "boolean"
  | .number => .word "number"
  | .string => .word "string"
  | .named name => .word name
  | .literal value => literalPhrase value
  | .array item => .list "Array" .angle [item.phrase]
  | .record values => .list "Record" .angle [.word "string", values.phrase]
  | .interface fields => .members (phraseFields fields)
  | .union arms => joinPhrases .either "never" (phraseArms arms)
  | .intersection arms => joinPhrases .both "unknown" (phraseArms arms)

/-- The phrases of arms. -/
def phraseArms : List TypeExpr → List Phrase
  | [] => []
  | t :: rest => t.phrase :: phraseArms rest

/-- The members of fields. -/
def phraseFields : List (Field TypeExpr) → List (Field Phrase)
  | [] => []
  | ⟨name, t, optional⟩ :: rest => ⟨name, t.phrase, optional⟩ :: phraseFields rest

end

theorem literalPhraseItems_eq_map (items : List Json) :
    literalPhraseItems items = items.map literalPhrase := by
  induction items with
  | nil => rfl
  | cons v items ih => rw [literalPhraseItems, ih, List.map_cons]

theorem literalPhraseFields_eq_map (fields : List (String × Json)) :
    literalPhraseFields fields = fields.map fun p ↦ ⟨p.1, literalPhrase p.2, false⟩ := by
  induction fields with
  | nil => rfl
  | cons p fields ih => rw [literalPhraseFields, ih, List.map_cons]

theorem phraseArms_eq_map (arms : List TypeExpr) : phraseArms arms = arms.map phrase := by
  induction arms with
  | nil => rfl
  | cons t arms ih => rw [phraseArms, ih, List.map_cons]

theorem phraseFields_eq_map (fields : List (Field TypeExpr)) :
    phraseFields fields = fields.map fun f ↦ ⟨f.name, f.type.phrase, f.optional⟩ := by
  induction fields with
  | nil => rfl
  | cons f fields ih => rw [phraseFields, ih, List.map_cons]

/-- What stands between the members of an alias. -/
def memberSeparator : List Char := [';', ' ']

theorem toList_textBraces (texts : List String) :
    (textBraces texts).toList = Phrase.enclose memberSeparator (texts.map String.toList) := by
  cases texts with
  | nil => rfl
  | cons s texts => simp [textBraces, Phrase.enclose, String.toList_intercalate, memberSeparator]

/-- Joined arms are the text of a joined phrase. -/
theorem toList_joinArms {b : Bracket} {operator empty : String}
    (hb : b.opening = '(' ∧ b.closing = ')' ∧ b.separator = operator.toList) {arms : List TypeExpr}
    (h : (textArms arms).map String.toList = Phrase.charsItems memberSeparator (phraseArms arms)) :
    (joinArms operator empty (textArms arms)).toList =
      (joinPhrases b empty (phraseArms arms)).chars memberSeparator := by
  match arms with
  | [] => rfl
  | [t] => exact (List.cons.inj h).1
  | t :: t' :: arms =>
    show ("(" ++ operator.intercalate (textArms (t :: t' :: arms)) ++ ")").toList =
      Phrase.chars memberSeparator (.list "" b (phraseArms (t :: t' :: arms)))
    obtain ⟨hopening, hclosing, hseparator⟩ := hb
    rw [Phrase.chars, ← h, hopening, hclosing, hseparator]
    simp

mutual

/-- The text of a literal is the characters of its phrase. -/
theorem toList_literalText : ∀ v : Json,
    (literalText v).toList = (literalPhrase v).chars memberSeparator
  | .scalar s => rfl
  | .array items => by
    show ("[" ++ ", ".intercalate (literalTextItems items) ++ "]").toList = _
    simp [literalPhrase, Phrase.chars, toList_literalTextItems items, Bracket.opening,
      Bracket.closing, Bracket.separator]
  | .object fields => by
    show (textBraces (literalTextFields fields)).toList = _
    rw [toList_textBraces, toList_literalTextFields fields]
    rfl

theorem toList_literalTextItems : ∀ items : List Json,
    (literalTextItems items).map String.toList =
      Phrase.charsItems memberSeparator (literalPhraseItems items)
  | [] => rfl
  | v :: rest => by
    rw [literalTextItems, List.map_cons, toList_literalText v, toList_literalTextItems rest]
    rfl

theorem toList_literalTextFields : ∀ fields : List (String × Json),
    (literalTextFields fields).map String.toList =
      Phrase.charsFields memberSeparator (literalPhraseFields fields)
  | [] => rfl
  | (key, v) :: rest => by
    rw [literalTextFields, List.map_cons, toList_literalTextFields rest]
    simp [literalPhraseFields, Phrase.charsFields, Phrase.keyChars, toList_literalText v]

end

mutual

/-- The text of a type is the text of its phrase. -/
theorem toList_text : ∀ t : TypeExpr, t.text.toList = t.phrase.chars memberSeparator
  | .null | .boolean | .number | .string => rfl
  | .named name => rfl
  | .literal value => toList_literalText value
  | .array item => by
    show ("Array<" ++ item.text ++ ">").toList = _
    simp [phrase, Phrase.chars, Phrase.charsItems, Bracket.opening, Bracket.closing,
      toList_text item]
  | .record values => by
    show ("Record<string, " ++ values.text ++ ">").toList = _
    simp [phrase, Phrase.chars, Phrase.charsItems, Bracket.opening, Bracket.closing,
      Bracket.separator, List.intercalate_cons_cons, toList_text values]
  | .interface fields => by
    show (textBraces (textFields fields)).toList = _
    rw [toList_textBraces, toList_textFields fields]
    rfl
  | .union arms => toList_joinArms (by decide) (toList_textArms arms)
  | .intersection arms => toList_joinArms (by decide) (toList_textArms arms)

theorem toList_textArms : ∀ arms : List TypeExpr,
    (textArms arms).map String.toList = Phrase.charsItems memberSeparator (phraseArms arms)
  | [] => rfl
  | t :: rest => by
    rw [textArms, List.map_cons, toList_text t, toList_textArms rest]
    rfl

theorem toList_textFields : ∀ fields : List (Field TypeExpr),
    (textFields fields).map String.toList = Phrase.charsFields memberSeparator (phraseFields fields)
  | [] => rfl
  | ⟨name, t, optional⟩ :: rest => by
    rw [textFields, List.map_cons, toList_textFields rest]
    cases optional <;>
      simp [phraseFields, Phrase.charsFields, Phrase.keyChars, toList_text t]

end

/-! ### Proper names -/

/-- A literal is written as a readable phrase. -/
theorem wellFormed_literalPhrase (v : Json) : (literalPhrase v).WellFormed := by
  induction v using Json.inductionOn with
  | scalar s => exact .scalar s
  | array items ih =>
    rw [literalPhrase, literalPhraseItems_eq_map]
    exact .list rfl (by decide) (Nat.zero_le _) (List.forall_mem_map.2 ih)
  | object fields ih =>
    rw [literalPhrase, literalPhraseFields_eq_map]
    exact .members (List.forall_mem_map.2 ih)

/-- Joined arms are readable, the brackets being left out for less than two. -/
theorem wellFormed_joinPhrases {b : Bracket} {empty : String} {arms : List Phrase}
    (hb : b.isBare = true ∧ b.least = 2) (hempty : isWord empty = true)
    (harms : ∀ p ∈ arms, p.WellFormed) : (joinPhrases b empty arms).WellFormed := by
  match arms with
  | [] => exact .word hempty
  | [only] => exact harms only List.mem_cons_self
  | p :: q :: arms => exact .list rfl (iff_of_true rfl hb.1) (by simp [hb.2]) harms

/-- A type with proper names is written as a readable phrase. -/
theorem wellFormed_phrase {t : TypeExpr}
    (h : ∀ name ∈ t.names, Identifier.isDeclarationName name = true) : t.phrase.WellFormed := by
  induction t using TypeExpr.inductionOn with
  | null => exact .scalar .null
  | boolean => exact .word (by decide)
  | number => exact .word (by decide)
  | string => exact .word (by decide)
  | named name => exact .word (isWord_of_isDeclarationName (h name List.mem_cons_self))
  | literal value => exact wellFormed_literalPhrase value
  | array item ih =>
    exact .list (by decide) (by decide) (Nat.zero_le _) (List.forall_mem_singleton.2 (ih h))
  | record values ih =>
    exact .list (by decide) (by decide) (Nat.zero_le _)
      (List.forall_mem_cons.2 ⟨.word (by decide), List.forall_mem_singleton.2 (ih h)⟩)
  | interface fields ih =>
    rw [phrase, phraseFields_eq_map]
    refine .members (List.forall_mem_map.2 fun f hf ↦ ih f hf fun name hname ↦ ?_)
    exact h name (mem_namesFields_iff.2 ⟨f, hf, hname⟩)
  | union arms ih =>
    rw [phrase, phraseArms_eq_map]
    refine wellFormed_joinPhrases (by decide) (by decide)
      (List.forall_mem_map.2 fun t ht ↦ ih t ht fun name hname ↦ ?_)
    exact h name (mem_namesList_iff.2 ⟨t, ht, hname⟩)
  | intersection arms ih =>
    rw [phrase, phraseArms_eq_map]
    refine wellFormed_joinPhrases (by decide) (by decide)
      (List.forall_mem_map.2 fun t ht ↦ ih t ht fun name hname ↦ ?_)
    exact h name (mem_namesList_iff.2 ⟨t, ht, hname⟩)

end TypeExpr

namespace CodecExpr

/-! ### Reading -/

/-- The codec of the type that a word stands for. -/
def ofAliasWord (w : String) : CodecExpr :=
  if w = "boolean" then .boolean
  else if w = "number" then .number
  else if w = "string" then .string
  else if w = "never" then .never
  else if w = "unknown" then .unknown
  else .reference w

/-- The codec of a type in brackets. -/
def ofAliasList (b : Bracket) (items : List CodecExpr) : CodecExpr :=
  match b, items with
  | .square, items => .tuple items
  | .angle, [item] => .array item
  | .angle, [_, values] => .record values
  | .either, arms => ofUnion arms
  | .both, arms => ofIntersection arms
  | _, _ => .unknown

mutual

/-- The codec of the type that a phrase stands for. -/
def ofAlias : Phrase → CodecExpr
  | .word w => ofAliasWord w
  | .scalar s => ofLiteral (.scalar s)
  | .list _ b items => ofAliasList b (ofAliasItems items)
  | .members fields => ofInterface (ofAliasFields fields)

/-- The codecs of items. -/
def ofAliasItems : List Phrase → List CodecExpr
  | [] => []
  | p :: rest => ofAlias p :: ofAliasItems rest

/-- The fields of members. -/
def ofAliasFields : List (Field Phrase) → List (Field CodecExpr)
  | [] => []
  | ⟨name, p, optional⟩ :: rest => ⟨name, ofAlias p, optional⟩ :: ofAliasFields rest

end

theorem ofAliasItems_eq_map (items : List Phrase) : ofAliasItems items = items.map ofAlias := by
  induction items with
  | nil => rfl
  | cons p items ih => rw [ofAliasItems, ih, List.map_cons]

theorem ofAliasFields_eq_map (fields : List (Field Phrase)) :
    ofAliasFields fields = fields.map fun f ↦ ⟨f.name, ofAlias f.type, f.optional⟩ := by
  induction fields with
  | nil => rfl
  | cons f fields ih => rw [ofAliasFields, ih, List.map_cons]

/-- An interface without optional fields is one structure. -/
theorem ofInterface_required (ps : List (String × CodecExpr)) :
    ofInterface (ps.map fun p ↦ ⟨p.1, p.2, false⟩) = .struct ps := by
  have hrequired : properties false (ps.map fun p ↦ ⟨p.1, p.2, false⟩) = ps := by
    simp [properties, List.filter_map, Function.comp_def]
  have hoptional : properties true (ps.map fun p ↦ ⟨p.1, p.2, false⟩) = [] := by
    simp [properties, List.filter_map, Function.comp_def]
  rw [ofInterface, hrequired, hoptional]

/-- The codec of a literal is known from its alias. -/
theorem ofAlias_literalPhrase (v : Json) : ofAlias (TypeExpr.literalPhrase v) = ofLiteral v := by
  induction v using Json.inductionOn with
  | scalar s => rfl
  | array items ih =>
    rw [TypeExpr.literalPhrase, ofAlias, TypeExpr.literalPhraseItems_eq_map, ofAliasItems_eq_map,
      List.map_map, ofLiteral, ofLiterals_eq_map]
    exact congrArg CodecExpr.tuple (List.map_congr_left ih)
  | object fields ih =>
    rw [TypeExpr.literalPhrase, ofAlias, TypeExpr.literalPhraseFields_eq_map, ofAliasFields_eq_map,
      List.map_map, ofLiteral, ofLiteralFields_eq_map, ← ofInterface_required, List.map_map]
    refine congrArg ofInterface (List.map_congr_left fun p hp ↦ ?_)
    show Field.mk p.1 (ofAlias (TypeExpr.literalPhrase p.2)) false = ⟨p.1, ofLiteral p.2, false⟩
    rw [ih p hp]

/-- A proper name is read as a reference, never as a keyword. -/
theorem ofAliasWord_of_isDeclarationName {name : String}
    (h : Identifier.isDeclarationName name = true) : ofAliasWord name = .reference name := by
  have hne {w : String} (hw : Identifier.isDeclarationName w = false) : name ≠ w := by
    rintro rfl
    exact Bool.noConfusion (h.symm.trans hw)
  rw [ofAliasWord, if_neg (hne (by decide)), if_neg (hne (by decide)), if_neg (hne (by decide)),
    if_neg (hne (by decide)), if_neg (hne (by decide))]

/-- Joined arms are read as the combination of what the arms are read as. -/
theorem ofAlias_joinPhrases {b : Bracket} {empty : String} {combine : List CodecExpr → CodecExpr}
    (hnone : combine [] = ofAliasWord empty) (hone : ∀ e, combine [e] = e)
    (hmany : ∀ es, combine es = ofAliasList b es) (arms : List Phrase) :
    ofAlias (TypeExpr.joinPhrases b empty arms) = combine (arms.map ofAlias) := by
  match arms with
  | [] => exact hnone.symm
  | [only] => exact (hone _).symm
  | p :: q :: arms =>
    show ofAliasList b (ofAliasItems (p :: q :: arms)) = _
    rw [ofAliasItems_eq_map, hmany]

/-- **The codec of a type can be read off its alias.** -/
theorem ofAlias_phrase {t : TypeExpr}
    (h : ∀ name ∈ t.names, Identifier.isDeclarationName name = true) :
    ofAlias t.phrase = ofType t := by
  induction t using TypeExpr.inductionOn with
  | null => rfl
  | boolean => rfl
  | number => rfl
  | string => rfl
  | named name => exact ofAliasWord_of_isDeclarationName (h name List.mem_cons_self)
  | literal value => exact ofAlias_literalPhrase value
  | array item ih => exact congrArg CodecExpr.array (ih h)
  | record values ih => exact congrArg CodecExpr.record (ih h)
  | interface fields ih =>
    rw [TypeExpr.phrase, ofAlias, TypeExpr.phraseFields_eq_map, ofAliasFields_eq_map, List.map_map,
      ofType, ofFields_eq_map]
    refine congrArg ofInterface (List.map_congr_left fun f hf ↦ ?_)
    show Field.mk f.name (ofAlias f.type.phrase) f.optional = ⟨f.name, ofType f.type, f.optional⟩
    rw [ih f hf fun name hname ↦ h name (TypeExpr.mem_namesFields_iff.2 ⟨f, hf, hname⟩)]
  | union arms ih =>
    have hjoin := @ofAlias_joinPhrases .either "never" ofUnion rfl (fun _ ↦ rfl) fun _ ↦ rfl
    rw [TypeExpr.phrase, hjoin, TypeExpr.phraseArms_eq_map, List.map_map, ofType, ofTypes_eq_map]
    refine congrArg ofUnion (List.map_congr_left fun t ht ↦ ih t ht fun name hname ↦ ?_)
    exact h name (TypeExpr.mem_namesList_iff.2 ⟨t, ht, hname⟩)
  | intersection arms ih =>
    have hjoin := @ofAlias_joinPhrases .both "unknown" ofIntersection rfl (fun _ ↦ rfl) fun _ ↦ rfl
    rw [TypeExpr.phrase, hjoin, TypeExpr.phraseArms_eq_map, List.map_map, ofType, ofTypes_eq_map]
    refine congrArg ofIntersection (List.map_congr_left fun t ht ↦ ih t ht fun name hname ↦ ?_)
    exact h name (TypeExpr.mem_namesList_iff.2 ⟨t, ht, hname⟩)

end CodecExpr

/-- **The text of an alias determines the text of the codec.** -/
theorem codecText_eq_of_aliasText_eq {t₁ t₂ : TypeExpr}
    (h₁ : ∀ name ∈ t₁.names, Identifier.isDeclarationName name = true)
    (h₂ : ∀ name ∈ t₂.names, Identifier.isDeclarationName name = true) (h : t₁.text = t₂.text) :
    (CodecExpr.ofType t₁).text = (CodecExpr.ofType t₂).text := by
  have hchars := congrArg String.toList h
  rw [TypeExpr.toList_text, TypeExpr.toList_text] at hchars
  have hphrase : t₁.phrase = t₂.phrase := Phrase.chars_inj (.of_cons rfl rfl (by decide))
    (TypeExpr.wellFormed_phrase h₁) (TypeExpr.wellFormed_phrase h₂) hchars
  rw [← CodecExpr.ofAlias_phrase h₁, hphrase, CodecExpr.ofAlias_phrase h₂]

/-- A literal whose strings hold every separator of an alias, as the only arm of a union. -/
def literalUnion : TypeExpr :=
  .union [.literal (.object [("a; b", .array [.string "x | y \x7d", .null]),
    ("c", .scalar (.bool true))])]

/-- An interface with the same alias. -/
def literalInterface : TypeExpr :=
  .interface [⟨"a; b", .literal (.array [.string "x | y \x7d", .null]), false⟩,
    ⟨"c", .intersection [.literal (.scalar (.bool true))], false⟩]

/-- Two types that differ and have the same alias text have the same codec text. -/
theorem codecText_literalUnion :
    literalUnion ≠ literalInterface ∧ literalUnion.text = literalInterface.text ∧
      (CodecExpr.ofType literalUnion).text = (CodecExpr.ofType literalInterface).text := by
  have htext : literalUnion.text = literalInterface.text := by rfl
  refine ⟨by simp [literalUnion, literalInterface], htext, ?_⟩
  exact codecText_eq_of_aliasText_eq (by decide) (by decide) htext

end SchemaCodec
