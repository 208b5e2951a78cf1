import SchemaCodec.Proofs.Codec.Acceptance
import SchemaCodec.Proofs.Text.Phrase

/-!
# The text of a codec determines the codec

A codec expression is written as a phrase (`CodecExpr.phrase`), and a phrase of this kind can be
read back as an expression (`CodecExpr.ofPhrase`). Since phrases can be read off their characters,
two expressions with the same text are the same (`WellNamed.eq_of_text_eq`), as long as all names in
them are names of declarations. Types with the same codec text may well differ, but the codec
accepts what the type accepts, so they accept the same values.
-/

namespace SchemaCodec

open Text

namespace CodecExpr

/-! ### Codecs as phrases -/

mutual

/-- The phrase of a codec expression. -/
def phrase : CodecExpr → Phrase
  | .null => .word "t.null"
  | .boolean => .word "t.boolean"
  | .number => .word "t.number"
  | .string => .word "t.string"
  | .never => .word "t.never"
  | .unknown => .word "t.unknown"
  | .reference name => .word name
  | .literal value => .list "t.literal" .round [.scalar value]
  | .tuple items => .list "t.tuple" .round [.list "" .square (phraseItems items)]
  | .array item => .list "t.array" .round [item.phrase]
  | .record values => .list "t.record" .round [.word "t.string", values.phrase]
  | .struct properties => .list "t.type" .round [.members (phraseFields properties)]
  | .partialStruct properties => .list "t.partial" .round [.members (phraseFields properties)]
  | .union members => .list "t.union" .round [.list "" .square (phraseItems members)]
  | .intersection members => .list "t.intersection" .round [.list "" .square (phraseItems members)]

/-- The phrases of expressions. -/
def phraseItems : List CodecExpr → List Phrase
  | [] => []
  | e :: rest => e.phrase :: phraseItems rest

/-- The members of properties. -/
def phraseFields : List (String × CodecExpr) → List (Field Phrase)
  | [] => []
  | (key, e) :: rest => ⟨key, e.phrase, false⟩ :: phraseFields rest

end

theorem phraseItems_eq_map (items : List CodecExpr) : phraseItems items = items.map phrase := by
  induction items with
  | nil => rfl
  | cons e items ih => rw [phraseItems, ih, List.map_cons]

theorem phraseFields_eq_map (properties : List (String × CodecExpr)) :
    phraseFields properties = properties.map fun p ↦ ⟨p.1, p.2.phrase, false⟩ := by
  induction properties with
  | nil => rfl
  | cons p properties ih => rw [phraseFields, ih, List.map_cons]

/-- What stands between the members of a codec. -/
def memberSeparator : List Char := [',', ' ']

theorem chars_call (head : String) (p : Phrase) :
    Phrase.chars memberSeparator (.list head .round [p]) =
      head.toList ++ '(' :: (p.chars memberSeparator ++ [')']) := by
  simp [Phrase.chars, Phrase.charsItems, Bracket.opening, Bracket.closing]

theorem chars_bareList (items : List Phrase) :
    Phrase.chars memberSeparator (.list "" .square items) =
      '[' :: ([',', ' '].intercalate (Phrase.charsItems memberSeparator items) ++ [']']) := by
  simp [Phrase.chars, Bracket.opening, Bracket.closing, Bracket.separator]

theorem toList_braces (texts : List String) :
    (braces texts).toList = Phrase.enclose memberSeparator (texts.map String.toList) := by
  cases texts with
  | nil => rfl
  | cons s texts => simp [braces, Phrase.enclose, String.toList_intercalate, memberSeparator]

mutual

/-- The text of an expression is the text of its phrase. -/
theorem toList_text : ∀ e : CodecExpr, e.text.toList = e.phrase.chars memberSeparator
  | .null | .boolean | .number | .string | .never | .unknown => rfl
  | .reference name => rfl
  | .literal value => by
    show ("t.literal(" ++ value.text ++ ")").toList = _
    simp [phrase, chars_call, Phrase.chars]
  | .tuple items => by
    show ("t.tuple([" ++ ", ".intercalate (textList items) ++ "])").toList = _
    simp [phrase, chars_call, chars_bareList, toList_textList items]
  | .array item => by
    show ("t.array(" ++ item.text ++ ")").toList = _
    simp [phrase, chars_call, toList_text item]
  | .record values => by
    show ("t.record(t.string, " ++ values.text ++ ")").toList = _
    simp [phrase, Phrase.chars, Phrase.charsItems, Bracket.opening, Bracket.closing,
      Bracket.separator, List.intercalate_cons_cons, toList_text values]
  | .struct properties => by
    show ("t.type(" ++ braces (textProperties properties) ++ ")").toList = _
    simp [phrase, chars_call, Phrase.chars, toList_braces, toList_textProperties properties]
  | .partialStruct properties => by
    show ("t.partial(" ++ braces (textProperties properties) ++ ")").toList = _
    simp [phrase, chars_call, Phrase.chars, toList_braces, toList_textProperties properties]
  | .union members => by
    show ("t.union([" ++ ", ".intercalate (textList members) ++ "])").toList = _
    simp [phrase, chars_call, chars_bareList, toList_textList members]
  | .intersection members => by
    show ("t.intersection([" ++ ", ".intercalate (textList members) ++ "])").toList = _
    simp [phrase, chars_call, chars_bareList, toList_textList members]

theorem toList_textList : ∀ items : List CodecExpr,
    (textList items).map String.toList = Phrase.charsItems memberSeparator (phraseItems items)
  | [] => rfl
  | e :: rest => by
    rw [textList, List.map_cons, toList_text e, toList_textList rest]
    rfl

theorem toList_textProperties : ∀ properties : List (String × CodecExpr),
    (textProperties properties).map String.toList =
      Phrase.charsFields memberSeparator (phraseFields properties)
  | [] => rfl
  | (key, e) :: rest => by
    rw [textProperties, List.map_cons, toList_textProperties rest]
    simp [phraseFields, Phrase.charsFields, Phrase.keyChars, toList_text e]

end

/-! ### Expressions with proper names -/

/-- Expressions in which every reference is the name of a declaration. -/
inductive WellNamed : CodecExpr → Prop
  | null : WellNamed .null
  | boolean : WellNamed .boolean
  | number : WellNamed .number
  | string : WellNamed .string
  | never : WellNamed .never
  | unknown : WellNamed .unknown
  | reference {name : String} (h : Identifier.isDeclarationName name = true) :
      WellNamed (.reference name)
  | literal (value : Json.Scalar) : WellNamed (.literal value)
  | tuple {items : List CodecExpr} (h : ∀ e ∈ items, WellNamed e) : WellNamed (.tuple items)
  | array {item : CodecExpr} (h : WellNamed item) : WellNamed (.array item)
  | record {values : CodecExpr} (h : WellNamed values) : WellNamed (.record values)
  | struct {properties : List (String × CodecExpr)} (h : ∀ p ∈ properties, WellNamed p.2) :
      WellNamed (.struct properties)
  | partialStruct {properties : List (String × CodecExpr)} (h : ∀ p ∈ properties, WellNamed p.2) :
      WellNamed (.partialStruct properties)
  | union {members : List CodecExpr} (h : ∀ e ∈ members, WellNamed e) : WellNamed (.union members)
  | intersection {members : List CodecExpr} (h : ∀ e ∈ members, WellNamed e) :
      WellNamed (.intersection members)

/-- A call of a named function with a readable argument is readable. -/
theorem wellFormed_call {head : String} {p : Phrase} (hhead : head.toList.all isWordPart = true)
    (hne : head ≠ "") (hp : p.WellFormed) : (Phrase.list head .round [p]).WellFormed :=
  .list hhead (iff_of_false hne (by decide)) (Nat.zero_le _) (List.forall_mem_singleton.2 hp)

theorem wellFormed_phraseItems {items : List CodecExpr} (h : ∀ e ∈ items, e.phrase.WellFormed) :
    (Phrase.list "" .square (phraseItems items)).WellFormed := by
  rw [phraseItems_eq_map]
  exact .list rfl (by decide) (Nat.zero_le _) (List.forall_mem_map.2 h)

theorem wellFormed_phraseFields {properties : List (String × CodecExpr)}
    (h : ∀ p ∈ properties, p.2.phrase.WellFormed) :
    (Phrase.members (phraseFields properties)).WellFormed := by
  rw [phraseFields_eq_map]
  exact .members (List.forall_mem_map.2 h)

/-- An expression with proper names is written as a readable phrase. -/
theorem WellNamed.wellFormed_phrase {e : CodecExpr} (h : e.WellNamed) : e.phrase.WellFormed := by
  induction h with
  | null => exact .word (by decide)
  | boolean => exact .word (by decide)
  | number => exact .word (by decide)
  | string => exact .word (by decide)
  | never => exact .word (by decide)
  | unknown => exact .word (by decide)
  | reference h => exact .word (isWord_of_isDeclarationName h)
  | literal value =>
    exact wellFormed_call (by decide) (by decide) (.scalar value)
  | tuple _ ih => exact wellFormed_call (by decide) (by decide) (wellFormed_phraseItems ih)
  | array _ ih => exact wellFormed_call (by decide) (by decide) ih
  | record _ ih =>
    exact .list (by decide) (by decide) (Nat.zero_le _)
      (List.forall_mem_cons.2 ⟨.word (by decide), List.forall_mem_singleton.2 ih⟩)
  | struct _ ih => exact wellFormed_call (by decide) (by decide) (wellFormed_phraseFields ih)
  | partialStruct _ ih => exact wellFormed_call (by decide) (by decide) (wellFormed_phraseFields ih)
  | union _ ih => exact wellFormed_call (by decide) (by decide) (wellFormed_phraseItems ih)
  | intersection _ ih => exact wellFormed_call (by decide) (by decide) (wellFormed_phraseItems ih)

/-! ### Reading -/

/-- The expression that a word stands for. -/
def ofWord (w : String) : CodecExpr :=
  if w = "t.null" then .null
  else if w = "t.boolean" then .boolean
  else if w = "t.number" then .number
  else if w = "t.string" then .string
  else if w = "t.never" then .never
  else if w = "t.unknown" then .unknown
  else .reference w

/-- The expression that a combinator makes of its arguments. A bare list is read as a tuple and
members are read as a structure, for the combinator in front to take them apart. -/
def ofCall (head : String) (args : List CodecExpr) : CodecExpr :=
  match head, args with
  | "", items => .tuple items
  | "t.array", [e] => .array e
  | "t.record", [_, e] => .record e
  | "t.partial", [.struct properties] => .partialStruct properties
  | "t.union", [.tuple members] => .union members
  | "t.intersection", [.tuple members] => .intersection members
  | _, [e] => e
  | _, _ => .unknown

mutual

/-- The expression that a phrase is read as. -/
def ofPhrase : Phrase → CodecExpr
  | .word w => ofWord w
  | .scalar s => .literal s
  | .list head _ items => ofCall head (ofPhraseItems items)
  | .members fields => .struct (ofPhraseFields fields)

/-- The expressions that phrases are read as. -/
def ofPhraseItems : List Phrase → List CodecExpr
  | [] => []
  | p :: rest => ofPhrase p :: ofPhraseItems rest

/-- The properties that members are read as. -/
def ofPhraseFields : List (Field Phrase) → List (String × CodecExpr)
  | [] => []
  | ⟨name, p, _⟩ :: rest => (name, ofPhrase p) :: ofPhraseFields rest

end

/-- Items are read back if each of them is. -/
theorem ofPhraseItems_phraseItems {items : List CodecExpr}
    (h : ∀ e ∈ items, ofPhrase e.phrase = e) : ofPhraseItems (phraseItems items) = items := by
  induction items with
  | nil => rfl
  | cons e items ih =>
    obtain ⟨he, hitems⟩ := List.forall_mem_cons.1 h
    rw [phraseItems, ofPhraseItems, he, ih hitems]

/-- Properties are read back if each of them is. -/
theorem ofPhraseFields_phraseFields {properties : List (String × CodecExpr)}
    (h : ∀ p ∈ properties, ofPhrase p.2.phrase = p.2) :
    ofPhraseFields (phraseFields properties) = properties := by
  induction properties with
  | nil => rfl
  | cons p properties ih =>
    obtain ⟨hp, hproperties⟩ := List.forall_mem_cons.1 h
    rw [phraseFields, ofPhraseFields, hp, ih hproperties]

/-- A proper name is read as a reference, never as a basic codec: those have a dot. -/
theorem ofWord_of_isDeclarationName {name : String} (h : Identifier.isDeclarationName name = true) :
    ofWord name = .reference name := by
  rw [Identifier.isDeclarationName, Bool.and_eq_true] at h
  have hne {w : String} (hw : Identifier.isIdentifier w = false) : name ≠ w := by
    rintro rfl
    exact Bool.noConfusion (h.1.symm.trans hw)
  rw [ofWord, if_neg (hne (by decide)), if_neg (hne (by decide)), if_neg (hne (by decide)),
    if_neg (hne (by decide)), if_neg (hne (by decide)), if_neg (hne (by decide))]

/-- **An expression is read back from its phrase.** -/
theorem WellNamed.ofPhrase_phrase {e : CodecExpr} (h : e.WellNamed) : ofPhrase e.phrase = e := by
  induction h with
  | null => rfl
  | boolean => rfl
  | number => rfl
  | string => rfl
  | never => rfl
  | unknown => rfl
  | reference h => exact ofWord_of_isDeclarationName h
  | literal value => rfl
  | tuple _ ih => exact congrArg CodecExpr.tuple (ofPhraseItems_phraseItems ih)
  | array _ ih => exact congrArg CodecExpr.array ih
  | record _ ih => exact congrArg CodecExpr.record ih
  | struct _ ih => exact congrArg CodecExpr.struct (ofPhraseFields_phraseFields ih)
  | partialStruct _ ih => exact congrArg CodecExpr.partialStruct (ofPhraseFields_phraseFields ih)
  | union _ ih => exact congrArg CodecExpr.union (ofPhraseItems_phraseItems ih)
  | intersection _ ih => exact congrArg CodecExpr.intersection (ofPhraseItems_phraseItems ih)

/-- **The text of an expression determines it.** -/
theorem WellNamed.eq_of_text_eq {e e' : CodecExpr} (he : e.WellNamed) (he' : e'.WellNamed)
    (h : e.text = e'.text) : e = e' := by
  have hchars := congrArg String.toList h
  rw [toList_text, toList_text] at hchars
  have hphrase : e.phrase = e'.phrase := Phrase.chars_inj (.of_cons rfl rfl (by decide))
    he.wellFormed_phrase he'.wellFormed_phrase hchars
  rw [← he.ofPhrase_phrase, hphrase, he'.ofPhrase_phrase]

/-! ### Codecs of types -/

/-- Properties that an expression has if its parts have them. -/
structure Closed (P : CodecExpr → Prop) : Prop where
  null : P .null
  boolean : P .boolean
  number : P .number
  string : P .string
  never : P .never
  unknown : P .unknown
  literal (value : Json.Scalar) : P (.literal value)
  tuple {items : List CodecExpr} (h : ∀ e ∈ items, P e) : P (.tuple items)
  array {item : CodecExpr} (h : P item) : P (.array item)
  record {values : CodecExpr} (h : P values) : P (.record values)
  struct {properties : List (String × CodecExpr)} (h : ∀ p ∈ properties, P p.2) :
    P (.struct properties)
  partialStruct {properties : List (String × CodecExpr)} (h : ∀ p ∈ properties, P p.2) :
    P (.partialStruct properties)
  union {members : List CodecExpr} (h : ∀ e ∈ members, P e) : P (.union members)
  intersection {members : List CodecExpr} (h : ∀ e ∈ members, P e) : P (.intersection members)

/-- Proper names in the parts are proper names in the whole. -/
theorem closed_wellNamed : Closed WellNamed where
  null := .null
  boolean := .boolean
  number := .number
  string := .string
  never := .never
  unknown := .unknown
  literal := .literal
  tuple := .tuple
  array := .array
  record := .record
  struct := .struct
  partialStruct := .partialStruct
  union := .union
  intersection := .intersection

section Closed

variable {P : CodecExpr → Prop} (hP : Closed P)

include hP

/-- Nested intersections inherit what their members have. -/
theorem Closed.intersect {members : List CodecExpr} (h : ∀ e ∈ members, P e) :
    P (intersect members) := by
  rw [CodecExpr.intersect]
  split
  · next hlen =>
    have hrest : P (CodecExpr.intersect (members.drop (maxMembers - 1))) :=
      Closed.intersect fun e he ↦ h e (List.mem_of_mem_drop he)
    exact hP.intersection (List.forall_mem_append.2
      ⟨fun e he ↦ h e (List.mem_of_mem_take he), List.forall_mem_singleton.2 hrest⟩)
  · exact hP.intersection h
termination_by members.length
decreasing_by simp_all [maxMembers]; omega

/-- The codec of a union inherits what its arms have. -/
theorem Closed.ofUnion {arms : List CodecExpr} (h : ∀ e ∈ arms, P e) : P (ofUnion arms) := by
  match arms with
  | [] => exact hP.never
  | [only] => exact h only List.mem_cons_self
  | _ :: _ :: _ => exact hP.union h

/-- The codec of an intersection inherits what its arms have. -/
theorem Closed.ofIntersection {arms : List CodecExpr} (h : ∀ e ∈ arms, P e) :
    P (ofIntersection arms) := by
  match arms with
  | [] => exact hP.unknown
  | [only] => exact h only List.mem_cons_self
  | _ :: _ :: _ => exact hP.intersect h

/-- The codec of an interface inherits what its fields have. -/
theorem Closed.ofInterface {fields : List (Field CodecExpr)} (h : ∀ f ∈ fields, P f.type) :
    P (ofInterface fields) := by
  have hproperties (optional : Bool) : ∀ p ∈ properties optional fields, P p.2 := by
    intro p hp
    obtain ⟨f, hf, -, rfl⟩ := mem_properties_iff.1 hp
    exact h f hf
  rw [CodecExpr.ofInterface]
  split
  · exact hP.struct (hproperties false)
  · exact hP.partialStruct (hproperties true)
  · exact hP.intersection (List.forall_mem_cons.2 ⟨hP.struct (hproperties false),
      List.forall_mem_singleton.2 (hP.partialStruct (hproperties true))⟩)

/-- Codecs of literals name nothing, so they have any such property. -/
theorem Closed.ofLiteral (v : Json) : P (ofLiteral v) := by
  induction v using Json.inductionOn with
  | scalar s =>
    cases s with
    | null => exact hP.null
    | bool b => exact hP.literal (.bool b)
    | number n => exact hP.literal (.number n)
    | string s => exact hP.literal (.string s)
  | array items ih =>
    rw [CodecExpr.ofLiteral, ofLiterals_eq_map]
    exact hP.tuple (List.forall_mem_map.2 ih)
  | object fields ih =>
    rw [CodecExpr.ofLiteral, ofLiteralFields_eq_map]
    exact hP.struct (List.forall_mem_map.2 ih)

end Closed

/-- The codec of a type has every such property that the references in it have. -/
theorem Closed.ofType {P : CodecExpr → Prop} (hP : Closed P) {t : TypeExpr}
    (h : ∀ name ∈ t.names, P (.reference name)) : P (ofType t) := by
  induction t using TypeExpr.inductionOn with
  | null => exact hP.null
  | boolean => exact hP.boolean
  | number => exact hP.number
  | string => exact hP.string
  | named name => exact h name List.mem_cons_self
  | literal value => exact hP.ofLiteral value
  | array item ih => exact hP.array (ih h)
  | record values ih => exact hP.record (ih h)
  | interface fields ih =>
    rw [CodecExpr.ofType, ofFields_eq_map]
    refine hP.ofInterface (List.forall_mem_map.2 fun f hf ↦ ih f hf fun name hname ↦ ?_)
    exact h name (TypeExpr.mem_namesFields_iff.2 ⟨f, hf, hname⟩)
  | union arms ih =>
    rw [CodecExpr.ofType, ofTypes_eq_map]
    refine hP.ofUnion (List.forall_mem_map.2 fun t ht ↦ ih t ht fun name hname ↦ ?_)
    exact h name (TypeExpr.mem_namesList_iff.2 ⟨t, ht, hname⟩)
  | intersection arms ih =>
    rw [CodecExpr.ofType, ofTypes_eq_map]
    refine hP.ofIntersection (List.forall_mem_map.2 fun t ht ↦ ih t ht fun name hname ↦ ?_)
    exact h name (TypeExpr.mem_namesList_iff.2 ⟨t, ht, hname⟩)

/-- A type with proper names has a codec with proper names. -/
theorem wellNamed_ofType {t : TypeExpr}
    (h : ∀ name ∈ t.names, Identifier.isDeclarationName name = true) : (ofType t).WellNamed :=
  closed_wellNamed.ofType fun name hname ↦ .reference (h name hname)

end CodecExpr

/-- **The text of a codec determines the accepted data.** Two types whose codecs are written alike
accept the same values, over every list of declarations. -/
theorem accepts_eq_of_codecText_eq {t₁ t₂ : TypeExpr}
    (h₁ : ∀ name ∈ t₁.names, Identifier.isDeclarationName name = true)
    (h₂ : ∀ name ∈ t₂.names, Identifier.isDeclarationName name = true)
    (h : (CodecExpr.ofType t₁).text = (CodecExpr.ofType t₂).text) (ds : List Declaration)
    (v : Json) : Declaration.accepts ds [] t₁ v = Declaration.accepts ds [] t₂ v := by
  have hcodec : CodecExpr.ofType t₁ = CodecExpr.ofType t₂ :=
    (CodecExpr.wellNamed_ofType h₁).eq_of_text_eq (CodecExpr.wellNamed_ofType h₂) h
  rw [Bool.eq_iff_iff, Declaration.accepts_nil_iff, Declaration.accepts_nil_iff,
    ← CodecExpr.accepts_ofType_iff, ← CodecExpr.accepts_ofType_iff, hcodec]

/-- A node with a compound literal and an optional field whose key needs quotes. -/
def nodeType : TypeExpr :=
  .interface [⟨"id", .string, false⟩, ⟨"next, \"]", .named "Node", true⟩,
    ⟨"kind", .literal (.object [("tag", .null)]), false⟩]

/-- The same node with its fields apart and the literal as an interface. -/
def splitNodeType : TypeExpr :=
  .intersection [
    .interface [⟨"id", .string, false⟩, ⟨"kind", .interface [⟨"tag", .null, false⟩], false⟩],
    .interface [⟨"next, \"]", .named "Node", true⟩]]

/-- A node with another one behind it. -/
def nodeValue : Json :=
  let leaf : Json := .object [("id", .string "b"), ("kind", .object [("tag", .null)])]
  .object [("id", .string "a"), ("kind", .object [("tag", .null)]), ("next, \"]", leaf)]

theorem ofType_splitNodeType : CodecExpr.ofType splitNodeType = CodecExpr.ofType nodeType := by
  simp only [splitNodeType, nodeType, CodecExpr.ofType, CodecExpr.ofTypes, CodecExpr.ofFields,
    CodecExpr.ofIntersection]
  rw [CodecExpr.intersect]
  rfl

/-- Two types that differ and have the same codec text accept a node alike. -/
theorem accepts_node_eq_accepts_splitNode :
    nodeType ≠ splitNodeType ∧
      (CodecExpr.ofType nodeType).text = (CodecExpr.ofType splitNodeType).text ∧
      Declaration.accepts [⟨"Node", nodeType⟩] [] nodeType nodeValue = true ∧
      Declaration.accepts [⟨"Node", nodeType⟩] [] nodeType nodeValue =
        Declaration.accepts [⟨"Node", nodeType⟩] [] splitNodeType nodeValue := by
  have htext : (CodecExpr.ofType nodeType).text = (CodecExpr.ofType splitNodeType).text :=
    congrArg CodecExpr.text ofType_splitNodeType.symm
  refine ⟨by simp [nodeType, splitNodeType], htext, by cbv, ?_⟩
  exact accepts_eq_of_codecText_eq (by decide) (by decide) htext _ _

end SchemaCodec
