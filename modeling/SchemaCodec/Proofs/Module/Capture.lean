import SchemaCodec.Proofs.Module.Layout

/-!
# Names that a module relies on

Besides the names that it declares, the text of a module uses words that it does not declare: in its
codecs the imported `t`, and in its aliases predefined types (`Module.vocabulary`). A declaration
with such a name captures the word. Most of these words are reserved and cannot be declared; three
are not, and a document that declares one of them is compiled all the same. So a word is captured if
and only if it is one of these three and declared (`captured_iff_declared`).

The words of a text are read off its phrases, `Phrase.identifiers`: of `t.array` it is the part
before the point. That nothing else is used follows both printers branch by branch.
-/

namespace SchemaCodec

open Text Declaration

/-! ### The identifiers of a phrase -/

namespace Text.Phrase

/-- What a word starts from: the part before its first point. -/
def root (w : String) : String :=
  String.ofList (w.toList.takeWhile (· != '.'))

/-- The words among the scalars. -/
def scalarWords : Json.Scalar → List String
  | .null => ["null"]
  | .bool true => ["true"]
  | .bool false => ["false"]
  | _ => []

mutual

/-- The identifiers that a phrase uses; keys and strings are none. -/
def identifiers : Phrase → List String
  | .word w => [root w]
  | .scalar s => scalarWords s
  | .list head _ items => (if head = "" then [] else [root head]) ++ identifiersItems items
  | .members fields => identifiersFields fields

/-- The identifiers of items. -/
def identifiersItems : List Phrase → List String
  | [] => []
  | p :: rest => p.identifiers ++ identifiersItems rest

/-- The identifiers of members. -/
def identifiersFields : List (Field Phrase) → List String
  | [] => []
  | ⟨_, p, _⟩ :: rest => p.identifiers ++ identifiersFields rest

end

theorem mem_identifiersItems_iff {items : List Phrase} {w : String} :
    w ∈ identifiersItems items ↔ ∃ p ∈ items, w ∈ p.identifiers := by
  induction items with
  | nil => simp [identifiersItems]
  | cons p items ih => simp [identifiersItems, ih]

theorem mem_identifiersFields_iff {fields : List (Field Phrase)} {w : String} :
    w ∈ identifiersFields fields ↔ ∃ f ∈ fields, w ∈ f.type.identifiers := by
  induction fields with
  | nil => simp [identifiersFields]
  | cons f fields ih => simp [identifiersFields, ih]

/-- A proper name has no dot, so it is its own root. -/
theorem root_of_isDeclarationName {name : String} (h : Identifier.isDeclarationName name = true) :
    root name = name := by
  rw [Identifier.isDeclarationName, Bool.and_eq_true] at h
  have hpoint : ∀ c ∈ name.toList, (c != '.') = true := by
    intro c hc
    have hpart := isPart_of_isIdentifier h.1 c hc
    rw [bne_iff_ne]
    rintro rfl
    exact absurd hpart (by decide)
  rw [root, List.takeWhile_eq_self_iff.2 hpoint, String.ofList_toList]

end Text.Phrase

/-! ### The vocabulary -/

/-- The words that modules use without declaring them. -/
def Module.vocabulary : List String :=
  ["t", "Array", "Record", "null", "true", "false", "boolean", "number", "string", "never",
    "unknown"]

/-- The words of the vocabulary that a declaration can have as its name. -/
def Module.declarable : List String :=
  ["t", "Array", "Record"]

theorem isDeclarationName_iff_mem_declarable :
    ∀ w ∈ Module.vocabulary, Identifier.isDeclarationName w = true ↔ w ∈ Module.declarable := by
  decide

/-- The phrase uses names from a list and the vocabulary only. -/
def Text.Phrase.Within (names : List String) (p : Phrase) : Prop :=
  ∀ w ∈ p.identifiers, w ∈ names ∨ w ∈ Module.vocabulary

namespace Text.Phrase

variable {names : List String}

theorem within_word {w : String} (h : root w ∈ Module.vocabulary) : (word w).Within names := by
  rw [Within, identifiers, List.forall_mem_singleton]
  exact .inr h

/-- A declared name stays within the declared names. -/
theorem within_name {name : String} (h : name ∈ names)
    (hname : Identifier.isDeclarationName name = true) : (word name).Within names := by
  rw [Within, identifiers, List.forall_mem_singleton, root_of_isDeclarationName hname]
  exact .inl h

theorem within_scalar (s : Json.Scalar) : (scalar s).Within names := by
  rcases s with - | (- | -) | n | s <;> simp [Within, identifiers, scalarWords, Module.vocabulary]

/-- A list stays within what its word and its items stay in. -/
theorem within_list {head : String} {b : Bracket} {items : List Phrase}
    (hhead : head = "" ∨ root head ∈ Module.vocabulary) (h : ∀ p ∈ items, p.Within names) :
    (list head b items).Within names := by
  intro w hw
  rw [identifiers, List.mem_append, mem_identifiersItems_iff] at hw
  rcases hw with hw | ⟨p, hp, hw⟩
  · split at hw
    · exact absurd hw List.not_mem_nil
    · next hne =>
      rw [List.mem_singleton.1 hw]
      exact .inr (hhead.resolve_left hne)
  · exact h p hp w hw

theorem within_members {fields : List (Field Phrase)} (h : ∀ f ∈ fields, f.type.Within names) :
    (members fields).Within names := by
  intro w hw
  rw [identifiers, mem_identifiersFields_iff] at hw
  obtain ⟨f, hf, hw⟩ := hw
  exact h f hf w hw

/-- A combinator applied to a list of expressions. -/
theorem within_call {head : String} {items : List CodecExpr} (hhead : root head ∈ Module.vocabulary)
    (h : ∀ e ∈ items, e.phrase.Within names) :
    (list head .round [.list "" .square (CodecExpr.phraseItems items)]).Within names := by
  rw [CodecExpr.phraseItems_eq_map]
  exact within_list (.inr hhead)
    (List.forall_mem_singleton.2 (within_list (.inl rfl) (List.forall_mem_map.2 h)))

/-- A combinator applied to properties. -/
theorem within_structure {head : String} {properties : List (String × CodecExpr)}
    (hhead : root head ∈ Module.vocabulary) (h : ∀ p ∈ properties, p.2.phrase.Within names) :
    (list head .round [.members (CodecExpr.phraseFields properties)]).Within names := by
  rw [CodecExpr.phraseFields_eq_map]
  exact within_list (.inr hhead)
    (List.forall_mem_singleton.2 (within_members (List.forall_mem_map.2 h)))

end Text.Phrase

open Text.Phrase

/-! ### What the two printers use -/

section Printers

variable {names : List String}

/-- Expressions whose phrase uses names from a list and the vocabulary only. -/
theorem closed_within : CodecExpr.Closed fun e ↦ e.phrase.Within names where
  null := within_word (by decide)
  boolean := within_word (by decide)
  number := within_word (by decide)
  string := within_word (by decide)
  never := within_word (by decide)
  unknown := within_word (by decide)
  literal value := within_list (by decide) (List.forall_mem_singleton.2 (within_scalar value))
  tuple h := within_call (by decide) h
  array h := within_list (by decide) (List.forall_mem_singleton.2 h)
  record h := within_list (by decide)
    (List.forall_mem_cons.2 ⟨within_word (by decide), List.forall_mem_singleton.2 h⟩)
  struct h := within_structure (by decide) h
  partialStruct h := within_structure (by decide) h
  union h := within_call (by decide) h
  intersection h := within_call (by decide) h

theorem within_literalPhrase (v : Json) : (TypeExpr.literalPhrase v).Within names := by
  induction v using Json.inductionOn with
  | scalar s => exact within_scalar s
  | array items ih =>
    rw [TypeExpr.literalPhrase, TypeExpr.literalPhraseItems_eq_map]
    exact within_list (.inl rfl) (List.forall_mem_map.2 ih)
  | object fields ih =>
    rw [TypeExpr.literalPhrase, TypeExpr.literalPhraseFields_eq_map]
    exact within_members (List.forall_mem_map.2 ih)

theorem within_joinPhrases {b : Bracket} {empty : String} {arms : List Phrase}
    (hempty : root empty ∈ Module.vocabulary) (h : ∀ p ∈ arms, p.Within names) :
    (TypeExpr.joinPhrases b empty arms).Within names := by
  match arms with
  | [] => exact within_word hempty
  | [only] => exact h only List.mem_cons_self
  | _ :: _ :: _ => exact within_list (.inl rfl) h

variable (hproper : ∀ name ∈ names, Identifier.isDeclarationName name = true)

include hproper

/-- The codec of a type uses the names of the type and the vocabulary only. -/
theorem within_codec {t : TypeExpr} (h : ∀ name ∈ t.names, name ∈ names) :
    (CodecExpr.ofType t).phrase.Within names :=
  closed_within.ofType fun name hname ↦ within_name (h name hname) (hproper name (h name hname))

/-- The alias of a type uses the names of the type and the vocabulary only. -/
theorem within_alias {t : TypeExpr} (h : ∀ name ∈ t.names, name ∈ names) :
    t.phrase.Within names := by
  induction t using TypeExpr.inductionOn with
  | null => exact within_scalar .null
  | boolean => exact within_word (by decide)
  | number => exact within_word (by decide)
  | string => exact within_word (by decide)
  | named name =>
    have hname := h name List.mem_cons_self
    exact within_name hname (hproper name hname)
  | literal value => exact within_literalPhrase value
  | array item ih => exact within_list (by decide) (List.forall_mem_singleton.2 (ih h))
  | record values ih =>
    exact within_list (by decide)
      (List.forall_mem_cons.2 ⟨within_word (by decide), List.forall_mem_singleton.2 (ih h)⟩)
  | interface fields ih =>
    rw [TypeExpr.phrase, TypeExpr.phraseFields_eq_map]
    refine within_members (List.forall_mem_map.2 fun f hf ↦ ih f hf fun name hname ↦ ?_)
    exact h name (TypeExpr.mem_namesFields_iff.2 ⟨f, hf, hname⟩)
  | union arms ih =>
    rw [TypeExpr.phrase, TypeExpr.phraseArms_eq_map]
    refine within_joinPhrases (by decide)
      (List.forall_mem_map.2 fun t ht ↦ ih t ht fun name hname ↦ ?_)
    exact h name (TypeExpr.mem_namesList_iff.2 ⟨t, ht, hname⟩)
  | intersection arms ih =>
    rw [TypeExpr.phrase, TypeExpr.phraseArms_eq_map]
    refine within_joinPhrases (by decide)
      (List.forall_mem_map.2 fun t ht ↦ ih t ht fun name hname ↦ ?_)
    exact h name (TypeExpr.mem_namesList_iff.2 ⟨t, ht, hname⟩)

end Printers

/-! ### Bindings -/

namespace Binding

/-- The type that a deferred constant is given. -/
def givenType (b : Binding) : Phrase :=
  .list "t.Type" .angle [.word b.name]

/-- The phrases in the exports of a binding. -/
def phrases (b : Binding) : List Phrase :=
  (if b.deferred then [b.givenType, .word "t.recursion"] else []) ++
    [b.codec.phrase, b.type.phrase]

/-- The exports of a binding are its phrases, with nothing between them but keywords, the name that
is bound, punctuation, and that name as a string. -/
structure ExportsPhrases (b : Binding) : Prop where
  constant_eager : b.deferred = false →
    b.constantExport.toList = ("export const " ++ b.name ++ " = ").toList ++
      b.codec.phrase.chars CodecExpr.memberSeparator ++ ";".toList
  constant_deferred : b.deferred = true →
    b.constantExport.toList = ("export const " ++ b.name ++ ": ").toList ++
      b.givenType.chars CodecExpr.memberSeparator ++ " = ".toList ++
      (Phrase.word "t.recursion").chars CodecExpr.memberSeparator ++
      ("(" ++ Json.quote b.name ++ ", () => ").toList ++
      b.codec.phrase.chars CodecExpr.memberSeparator ++ ");".toList
  alias_eq : b.aliasExport.toList = ("export type " ++ b.name ++ " = ").toList ++
    b.type.phrase.chars TypeExpr.memberSeparator ++ ";".toList

/-- The two lines of a binding are made of its phrases. -/
theorem exportsPhrases (b : Binding) : b.ExportsPhrases where
  constant_eager h := by
    rw [constantExport, constant, h, ← CodecExpr.toList_text]
    simp
  constant_deferred h := by
    rw [constantExport, constant, h, ← CodecExpr.toList_text]
    simp [givenType, Phrase.chars, Phrase.charsItems, Bracket.opening, Bracket.closing]
  alias_eq := by
    rw [aliasExport, aliasLine, ← TypeExpr.toList_text]
    simp

theorem within_phrases {b : Binding} {names : List String}
    (hproper : ∀ name ∈ names, Identifier.isDeclarationName name = true) (hname : b.name ∈ names)
    (htype : ∀ name ∈ b.type.names, name ∈ names) : ∀ p ∈ b.phrases, p.Within names := by
  rw [phrases, List.forall_mem_append, List.forall_mem_cons, List.forall_mem_singleton]
  refine ⟨?_, within_codec hproper htype, within_alias hproper htype⟩
  split
  · have hgiven : b.givenType.Within names := within_list (by decide)
      (List.forall_mem_singleton.2 (within_name hname (hproper b.name hname)))
    exact List.forall_mem_cons.2
      ⟨hgiven, List.forall_mem_singleton.2 (within_word (by decide))⟩
  · exact List.forall_mem_nil _

end Binding

/-! ### Compilations -/

variable {settings : Settings} {document : Json} {c : Compilation}

/-- Compiled bindings use declared names and the vocabulary only. -/
theorem within_phrases_of_mem_bindings (hc : compile settings document = .ok c) {b : Binding}
    (hb : b ∈ c.bindings) : ∀ p ∈ b.phrases, p.Within c.names := by
  obtain ⟨d, hd, hname, htype⟩ := exists_declaration_of_mem_bindings hb
  refine Binding.within_phrases (fun _ ↦ isDeclarationName_of_compile hc) ?_ fun name hmem ↦ ?_
  · rw [hname]
    exact List.mem_map_of_mem hd
  · exact mem_names_of_named hc hd (htype ▸ hmem)

/-- A word of the vocabulary is declared only if it is not reserved. -/
theorem mem_names_iff_of_mem_vocabulary (hc : compile settings document = .ok c) {w : String}
    (hw : w ∈ Module.vocabulary) :
    w ∈ c.names ↔ w ∈ Module.declarable ∧ w ∈ Document.declaredNames settings document := by
  rw [← mem_names_iff_mem_declaredNames hc, ← isDeclarationName_iff_mem_declarable w hw]
  exact ⟨fun h ↦ ⟨isDeclarationName_of_compile hc h, h⟩, And.right⟩

/-- **What a module captures.** Behind its preamble the text of a compiled document is the exports
of its declarations, and these are phrases. Every identifier in them is a declared name or a word of
the vocabulary. Such a word is also a declared name if and only if it is `t`, `Array` or `Record`
and the document declares it. Behind the import of `t` no name is bound twice, unless the document
declares `t`. -/
theorem captured_iff_declared (hc : compile settings document = .ok c) :
    (∀ preamble, (c.toModule preamble).text = preamble ++ "\n" ++ String.join
        ((c.bindings.map Binding.constantExport ++ c.bindings.map Binding.aliasExport).map
          (· ++ "\n"))) ∧
      (∀ b ∈ c.bindings, b.ExportsPhrases ∧ ∀ p ∈ b.phrases, ∀ w ∈ p.identifiers,
        w ∈ c.names ∨ w ∈ Module.vocabulary) ∧
      (∀ w ∈ Module.vocabulary, w ∈ c.names ↔
        w ∈ ["t", "Array", "Record"] ∧ w ∈ Document.declaredNames settings document) ∧
      (("t" :: c.names).Nodup ↔ "t" ∉ Document.declaredNames settings document) := by
  refine ⟨fun preamble ↦ Module.text_eq preamble c.bindings,
    fun b hb ↦ ⟨b.exportsPhrases, within_phrases_of_mem_bindings hc hb⟩,
    fun w hw ↦ mem_names_iff_of_mem_vocabulary hc hw, ?_⟩
  rw [List.nodup_cons, mem_names_iff_mem_declaredNames hc]
  exact and_iff_left (nodup_names_compile hc)

/-! ### A document that captures every such word -/

/-- Settings under which no declaration is synthesized for the definitions `t` and `Record`. -/
def capturingSettings : Settings :=
  { toplevel := "Array", envelope := "t", anything := "Record" }

/-- A document that declares them, an array and a record. -/
def capturingDocument : Json :=
  .object [("definitions", .object [("t", .object [("type", .string "array")]),
    ("Record", .object [("additionalProperties", .object [])])])]

/-- What the document declares. -/
def capturingDeclarations : List Declaration :=
  [⟨"t", .array .string⟩, ⟨"Record", .record .string⟩, ⟨"Array", .string⟩]

theorem compile_capturingDocument :
    compile capturingSettings capturingDocument = .ok ⟨sort capturingDeclarations⟩ := by
  refine compile_of_resolve_ok ?_ rfl
  have hbody : TypeExpr.ofSchema (.object []) = .string := ofSchema_eq _
  have harray : TypeExpr.ofSchema (.object [("type", .string "array")]) = .array .string :=
    ofSchema_eq _
  have hrecord : TypeExpr.ofSchema (.object [("additionalProperties", .object [])]) =
      .record .string := (ofSchema_eq _).trans (congrArg TypeExpr.record hbody)
  show Except.ok [(⟨"t", .ofSchema (.object [("type", .string "array")])⟩ : Declaration),
    ⟨"Record", .ofSchema (.object [("additionalProperties", .object [])])⟩,
    ⟨"Array", .ofSchema (.object [])⟩] = _
  rw [hbody, harray, hrecord]
  rfl

/-- All three words are captured here, and `t` is bound twice. -/
theorem captured_capturingDocument :
    compile capturingSettings capturingDocument = .ok ⟨sort capturingDeclarations⟩ ∧
      (∀ w ∈ ["t", "Array", "Record"], w ∈ (Compilation.mk (sort capturingDeclarations)).names) ∧
      ¬("t" :: (Compilation.mk (sort capturingDeclarations)).names).Nodup := by
  have hdeclared : ∀ w ∈ ["t", "Array", "Record"],
      w ∈ Document.declaredNames capturingSettings capturingDocument := by decide
  have hwords : ∀ w ∈ ["t", "Array", "Record"], w ∈ Module.vocabulary := by decide
  obtain ⟨-, -, hcaptured, hnodup⟩ := captured_iff_declared compile_capturingDocument
  refine ⟨compile_capturingDocument, fun w hw ↦ ?_, fun h ↦ ?_⟩
  · exact (hcaptured w (hwords w hw)).2 ⟨hw, hdeclared w hw⟩
  · exact hnodup.1 h (hdeclared "t" List.mem_cons_self)

/-- **The import can be captured.** The preamble does not prevent it. -/
theorem not_forall_import_not_declared :
    ¬∀ (settings : Settings) (document : Json) (c : Compilation),
      settings.preamble = "import * as t from \"io-ts\";" → compile settings document = .ok c →
        "t" ∉ c.names ∧ "Array" ∉ c.names ∧ "Record" ∉ c.names := by
  intro h
  have hc : compile { toplevel := "t" } (.object []) = .ok ⟨[⟨"t", .string⟩]⟩ :=
    compile_emptyObject (by decide)
  exact (h _ _ _ rfl hc).1 List.mem_cons_self

end SchemaCodec
