import SchemaCodec.Proofs.Codec.Readability

/-!
# What the emitted text means

`Phrase.Accepts` is the documented acceptance of each combinator once more, on the words and
brackets that are emitted: each rule names the combinator as it is spelled. `Binding.LineAccepts`
reads the lines of the constants in the same way, from the name that a line binds to the phrase
behind it, which may be built on first use.

An expression with proper names means what its phrase means (`CodecExpr.accepts_phrase_iff`), and a
line can be read in one way only (`Binding.Defines.unique`). So the emitted text, the acceptance of
its codecs and the checks agree (`Binding.accepts_iff_check?`).
-/

namespace SchemaCodec

open Text

/-! ### Combinators as they are spelled -/

/-- The values that a phrase accepts when the constants of the module accept `names`. Nothing is
accepted by `t.never`. -/
inductive Text.Phrase.Accepts (names : String → Json → Prop) : Phrase → Json → Prop
  | null : Accepts names (.word "t.null") .null
  | boolean (b : Bool) : Accepts names (.word "t.boolean") (.scalar (.bool b))
  | number (n : Json.Number) : Accepts names (.word "t.number") (.scalar (.number n))
  | string (s : String) : Accepts names (.word "t.string") (.string s)
  | unknown (v : Json) : Accepts names (.word "t.unknown") v
  | constant {name : String} {v : Json} (hname : Identifier.isDeclarationName name = true)
      (h : names name v) : Accepts names (.word name) v
  | literal {wanted s : Json.Scalar} (h : wanted.Matches s) :
      Accepts names (.list "t.literal" .round [.scalar wanted]) (.scalar s)
  | tuple {ps : List Phrase} {items : List Json} (hlen : ps.length = items.length)
      (h : ∀ (i : ℕ) (p : Phrase) (v : Json), ps[i]? = some p → items[i]? = some v →
        Accepts names p v) :
      Accepts names (.list "t.tuple" .round [.list "" .square ps]) (.array items)
  | array {p : Phrase} {items : List Json} (h : ∀ v ∈ items, Accepts names p v) :
      Accepts names (.list "t.array" .round [p]) (.array items)
  | record {p : Phrase} {fields : List (String × Json)} (h : ∀ f ∈ fields, Accepts names p f.2) :
      Accepts names (.list "t.record" .round [.word "t.string", p]) (.object fields)
  | type {members : List (Field Phrase)} {fields : List (String × Json)}
      (hpresent : ∀ m ∈ members, (Entries.get? m.name fields).isSome)
      (h : ∀ m ∈ members, ∀ v, Entries.get? m.name fields = some v → Accepts names m.type v) :
      Accepts names (.list "t.type" .round [.members members]) (.object fields)
  | partialType {members : List (Field Phrase)} {fields : List (String × Json)}
      (h : ∀ m ∈ members, ∀ v, Entries.get? m.name fields = some v → Accepts names m.type v) :
      Accepts names (.list "t.partial" .round [.members members]) (.object fields)
  | union {ps : List Phrase} {p : Phrase} {v : Json} (hmem : p ∈ ps) (h : Accepts names p v) :
      Accepts names (.list "t.union" .round [.list "" .square ps]) v
  | intersection {ps : List Phrase} {v : Json} (h : ∀ p ∈ ps, Accepts names p v) :
      Accepts names (.list "t.intersection" .round [.list "" .square ps]) v

namespace CodecExpr

variable {names : String → Json → Prop} {e : CodecExpr} {p : Phrase} {v : Json}

/-- An expression is known from its phrase. -/
theorem WellNamed.eq_ofPhrase (he : e.WellNamed) (hp : e.phrase = p) : e = ofPhrase p :=
  he.ofPhrase_phrase.symm.trans (congrArg ofPhrase hp)

/-- What an expression accepts, its phrase accepts. -/
theorem WellNamed.accepts_phrase (he : e.WellNamed) (h : e.Accepts names v) :
    e.phrase.Accepts names v := by
  induction h with
  | null => exact .null
  | boolean b => exact .boolean b
  | number n => exact .number n
  | string s => exact .string s
  | unknown v => exact .unknown v
  | reference h =>
    cases he with
    | reference hname => exact .constant hname h
  | literal h => exact .literal h
  | @tuple es items hlen h ih =>
    cases he with
    | tuple hes =>
      rw [phrase, phraseItems_eq_map]
      refine .tuple (by simpa using hlen) fun i p v hp hv ↦ ?_
      obtain ⟨e, he, rfl⟩ : ∃ e, es[i]? = some e ∧ e.phrase = p := by simpa using hp
      exact ih i e v he hv (hes e (List.mem_of_getElem? he))
  | array _ ih =>
    cases he with
    | array he => exact .array fun v hv ↦ ih v hv he
  | record _ ih =>
    cases he with
    | record he => exact .record fun f hf ↦ ih f hf he
  | struct hpresent _ ih =>
    cases he with
    | struct hes =>
      rw [phrase, phraseFields_eq_map]
      refine .type (List.forall_mem_map.2 hpresent) (List.forall_mem_map.2 fun x hx v hv ↦ ?_)
      exact ih x hx v hv (hes x hx)
  | partialStruct _ ih =>
    cases he with
    | partialStruct hes =>
      rw [phrase, phraseFields_eq_map]
      refine .partialType (List.forall_mem_map.2 fun x hx v hv ↦ ?_)
      exact ih x hx v hv (hes x hx)
  | union hmem _ ih =>
    cases he with
    | union hes =>
      rw [phrase, phraseItems_eq_map]
      exact .union (List.mem_map_of_mem hmem) (ih (hes _ hmem))
  | intersection _ ih =>
    cases he with
    | intersection hes =>
      rw [phrase, phraseItems_eq_map]
      exact .intersection (List.forall_mem_map.2 fun e he ↦ ih e he (hes e he))

/-- What the phrase of an expression accepts, the expression accepts. -/
theorem accepts_of_accepts_phrase (h : p.Accepts names v) (he : e.WellNamed) (hp : e.phrase = p) :
    e.Accepts names v := by
  induction h generalizing e with
  | null => exact he.eq_ofPhrase hp ▸ .null
  | boolean b => exact he.eq_ofPhrase hp ▸ .boolean b
  | number n => exact he.eq_ofPhrase hp ▸ .number n
  | string s => exact he.eq_ofPhrase hp ▸ .string s
  | unknown v => exact he.eq_ofPhrase hp ▸ .unknown v
  | @constant name v hname h =>
    have heq : e = .reference name :=
      (he.eq_ofPhrase hp).trans (ofWord_of_isDeclarationName hname)
    exact heq ▸ .reference h
  | literal h => exact he.eq_ofPhrase hp ▸ .literal h
  | @tuple ps items hlen _ ih =>
    obtain ⟨es, rfl⟩ : ∃ es, e = .tuple es := ⟨_, he.eq_ofPhrase hp⟩
    cases he with
    | tuple hes =>
      obtain rfl : es.map phrase = ps := by simpa [phrase, phraseItems_eq_map] using hp
      refine .tuple (by simpa using hlen) fun i e v he hv ↦ ?_
      exact ih i e.phrase v (by simp [he]) hv (hes e (List.mem_of_getElem? he)) rfl
  | @array p items _ ih =>
    obtain ⟨item, rfl⟩ : ∃ item, e = .array item := ⟨_, he.eq_ofPhrase hp⟩
    cases he with
    | array hitem =>
      obtain rfl : item.phrase = p := by simpa [phrase] using hp
      exact .array fun v hv ↦ ih v hv hitem rfl
  | @record p fields _ ih =>
    obtain ⟨values, rfl⟩ : ∃ values, e = .record values := ⟨_, he.eq_ofPhrase hp⟩
    cases he with
    | record hvalues =>
      obtain rfl : values.phrase = p := by simpa [phrase] using hp
      exact .record fun f hf ↦ ih f hf hvalues rfl
  | @type members fields hpresent _ ih =>
    obtain ⟨properties, rfl⟩ : ∃ properties, e = .struct properties := ⟨_, he.eq_ofPhrase hp⟩
    cases he with
    | struct hes =>
      obtain rfl : (properties.map fun x ↦ ⟨x.1, x.2.phrase, false⟩) = members := by
        simpa [phrase, phraseFields_eq_map] using hp
      rw [List.forall_mem_map] at hpresent ih
      exact .struct hpresent fun x hx v hv ↦ ih x hx v hv (hes x hx) rfl
  | @partialType members fields _ ih =>
    obtain ⟨properties, rfl⟩ : ∃ properties, e = .partialStruct properties :=
      ⟨_, he.eq_ofPhrase hp⟩
    cases he with
    | partialStruct hes =>
      obtain rfl : (properties.map fun x ↦ ⟨x.1, x.2.phrase, false⟩) = members := by
        simpa [phrase, phraseFields_eq_map] using hp
      rw [List.forall_mem_map] at ih
      exact .partialStruct fun x hx v hv ↦ ih x hx v hv (hes x hx) rfl
  | @union ps p v hmem _ ih =>
    obtain ⟨members, rfl⟩ : ∃ members, e = .union members := ⟨_, he.eq_ofPhrase hp⟩
    cases he with
    | union hes =>
      obtain rfl : members.map phrase = ps := by simpa [phrase, phraseItems_eq_map] using hp
      obtain ⟨e, he, rfl⟩ := List.mem_map.1 hmem
      exact .union he (ih (hes e he) rfl)
  | @intersection ps v _ ih =>
    obtain ⟨members, rfl⟩ : ∃ members, e = .intersection members := ⟨_, he.eq_ofPhrase hp⟩
    cases he with
    | intersection hes =>
      obtain rfl : members.map phrase = ps := by simpa [phrase, phraseItems_eq_map] using hp
      rw [List.forall_mem_map] at ih
      exact .intersection fun e he ↦ ih e he (hes e he) rfl

/-- **An expression means what its phrase means.** -/
theorem accepts_phrase_iff (he : e.WellNamed) : e.phrase.Accepts names v ↔ e.Accepts names v :=
  ⟨fun h ↦ accepts_of_accepts_phrase h he rfl, he.accepts_phrase⟩

end CodecExpr

/-! ### Lines of a module -/

/-- The text of a codec that is spelled as `p`. -/
def Text.Phrase.codecText (p : Phrase) : String :=
  String.ofList (p.chars CodecExpr.memberSeparator)

namespace Binding

/-- `Defines name p line` means that `line` binds the constant `name` to the codec `p`, which is
built at once or on first use. -/
inductive Defines (name : String) (p : Phrase) : String → Prop
  | eager : Defines name p ("export const " ++ name ++ " = " ++ p.codecText ++ ";")
  | deferred : Defines name p ("export const " ++ name ++ ": t.Type<" ++ name ++
      "> = t.recursion(" ++ Json.quote name ++ ", () => " ++ p.codecText ++ ");")

/-- What the constants of a module accept, read from its lines: the least relation under which each
accepts what the codec in its line accepts. -/
inductive LineAccepts (lines : List String) : String → Json → Prop
  | constant {name line : String} {p : Phrase} {v : Json} (hline : line ∈ lines)
      (hname : Identifier.isDeclarationName name = true) (hp : p.WellFormed)
      (hdefines : Defines name p line) (h : p.Accepts (LineAccepts lines) v) :
      LineAccepts lines name v

/-- Any meaning of the constants that is closed under their lines includes this one. -/
theorem LineAccepts.least {lines : List String} {names : String → Json → Prop}
    (hnames : ∀ (name : String) (p : Phrase) (v : Json), ∀ line ∈ lines,
      Identifier.isDeclarationName name = true → p.WellFormed → Defines name p line →
      p.Accepts names v → names name v)
    {name : String} {v : Json} (h : LineAccepts lines name v) : names name v :=
  @LineAccepts.rec lines (fun name v _ ↦ names name v) (fun p v _ ↦ p.Accepts names v)
    (fun hline hname hp hdefines _ ih ↦ hnames _ _ _ _ hline hname hp hdefines ih)
    .null .boolean .number .string .unknown (fun hname _ ih ↦ .constant hname ih)
    (fun h ↦ .literal h) (fun hlen _ ih ↦ .tuple hlen ih) (fun _ ih ↦ .array ih)
    (fun _ ih ↦ .record ih) (fun hpresent _ ih ↦ .type hpresent ih)
    (fun _ ih ↦ .partialType ih) (fun hmem _ ih ↦ .union hmem ih)
    (fun _ ih ↦ .intersection ih) name v h

variable {b : Binding} {bindings : List Binding} {name name' line : String} {p p' : Phrase}
  {v : Json}

/-- The line of a binding defines its constant as its codec. -/
theorem defines_constant (b : Binding) :
    Defines b.name b.codec.phrase ("export " ++ b.constant) := by
  have htext : b.codec.text = b.codec.phrase.codecText := by
    rw [← String.toList_inj, CodecExpr.toList_text, Phrase.codecText, String.toList_ofList]
  rw [constant, htext]
  split
  · convert Defines.deferred using 1
    simp [← String.toList_inj]
  · convert Defines.eager using 1
    simp [← String.toList_inj]

/-- What follows the name in a line that defines it: a blank, or the type of the constant. -/
def afterName (name : String) (p : Phrase) (deferred : Bool) : List Char :=
  if deferred then
    ':' :: (" t.Type<" ++ name ++ "> = t.recursion(" ++ Json.quote name ++ ", () => ").toList ++
      (p.codecText.toList ++ [')', ';'])
  else ' ' :: ['=', ' '] ++ (p.codecText.toList ++ [';'])

theorem Defines.exists_toList_eq (h : Defines name p line) :
    ∃ deferred,
      line.toList = "export const ".toList ++ (name.toList ++ afterName name p deferred) := by
  cases h with
  | eager => exact ⟨false, by simp [afterName]⟩
  | deferred => exact ⟨true, by simp [afterName]⟩

/-- A name is over where the rest of its line begins. -/
theorem isPart_head_afterName {deferred : Bool} :
    ∀ c ∈ (afterName name p deferred).head?, Identifier.isPart c = false := by
  cases deferred <;> rintro c ⟨⟩ <;> decide

/-- **A line defines one constant, as one codec.** -/
theorem Defines.unique (h : Defines name p line) (h' : Defines name' p' line)
    (hname : Identifier.isDeclarationName name = true)
    (hname' : Identifier.isDeclarationName name' = true) (hp : p.WellFormed) (hp' : p'.WellFormed) :
    name = name' ∧ p = p' := by
  obtain ⟨deferred, hline⟩ := h.exists_toList_eq
  obtain ⟨deferred', hline'⟩ := h'.exists_toList_eq
  rw [Identifier.isDeclarationName, Bool.and_eq_true] at hname hname'
  obtain ⟨heq, hrest⟩ := run_append_inj (isPart_of_isIdentifier hname.1)
    (isPart_of_isIdentifier hname'.1) isPart_head_afterName isPart_head_afterName
    (List.append_cancel_left (hline.symm.trans hline'))
  obtain rfl := String.toList_inj.1 heq
  have htext : p.codecText.toList = p'.codecText.toList := by
    cases deferred with
    | true =>
      cases deferred' with
      | true => simpa [afterName] using hrest
      | false => exact absurd (List.cons.inj hrest).1 (by decide)
    | false =>
      cases deferred' with
      | true => exact absurd (List.cons.inj hrest).1 (by decide)
      | false => simpa [afterName] using hrest
  rw [Phrase.codecText, Phrase.codecText, String.toList_ofList, String.toList_ofList] at htext
  exact ⟨rfl, Phrase.chars_inj (.of_cons rfl rfl (by decide)) hp hp' htext⟩

/-- The line of a type alias defines no constant. -/
theorem not_defines_aliasLine (b : Binding) : ¬Defines name p ("export " ++ b.aliasLine) := by
  intro h
  obtain ⟨deferred, hline⟩ := h.exists_toList_eq
  simp [aliasLine] at hline

/-- **The lines of a module mean its bindings**, if names are proper. -/
theorem lineAccepts_lines_iff
    (hbindings : ∀ b ∈ bindings, Identifier.isDeclarationName b.name = true ∧ b.codec.WellNamed) :
    LineAccepts (Module.mk none bindings).lines name v ↔ Accepts bindings name v := by
  constructor
  · refine LineAccepts.least fun name p v line hline hname hp hdefines h ↦ ?_
    rw [Module.lines, Option.toList_none, List.nil_append, List.mem_append, List.mem_map,
      List.mem_map] at hline
    obtain ⟨b, hb, rfl⟩ | ⟨b, -, rfl⟩ := hline
    · obtain ⟨hbname, hbcodec⟩ := hbindings b hb
      obtain ⟨rfl, rfl⟩ :=
        hdefines.unique b.defines_constant hname hbname hp hbcodec.wellFormed_phrase
      exact .codec hb ((CodecExpr.accepts_phrase_iff hbcodec).1 h)
    · exact absurd hdefines b.not_defines_aliasLine
  · refine Accepts.least fun b hb v h ↦ ?_
    obtain ⟨hbname, hbcodec⟩ := hbindings b hb
    have hline : "export " ++ b.constant ∈ (Module.mk none bindings).lines :=
      List.mem_append_left _ (List.mem_append_right _ (List.mem_map_of_mem hb))
    exact .constant hline hbname hbcodec.wellFormed_phrase b.defines_constant
      ((CodecExpr.accepts_phrase_iff hbcodec).2 h)

variable {ds : List Declaration}

/-- Declarations with proper names give bindings with proper names. -/
theorem wellNamed_of_mem_ofDeclarations
    (hproper : ∀ d ∈ ds, Identifier.isDeclarationName d.name = true ∧
      ∀ name ∈ d.type.names, Identifier.isDeclarationName name = true) :
    ∀ b ∈ ofDeclarations ds, Identifier.isDeclarationName b.name = true ∧ b.codec.WellNamed := by
  intro b hb
  obtain ⟨i, rfl⟩ := mem_ofDeclarations_iff.1 hb
  obtain ⟨hname, hnames⟩ := hproper _ (ds.get_mem i)
  exact ⟨hname, CodecExpr.wellNamed_ofType hnames⟩

/-- **The emitted codecs mean what the checks say.** For declarations with distinct names, the
constant that is emitted under a name accepts a value exactly when the check for that name passes,
and the codec of any type over these constants accepts exactly what the type accepts. If the names
are proper, that is also what the lines of the emitted module say, combinator by combinator. -/
theorem accepts_iff_check? (hnd : (ds.map Declaration.name).Nodup) (v : Json) :
    (∀ name, Accepts (ofDeclarations ds) name v ↔ Declaration.check? ds name v = some true) ∧
      (∀ t, CodecExpr.Accepts (Accepts (ofDeclarations ds)) (CodecExpr.ofType t) v ↔
        Declaration.accepts ds [] t v = true) ∧
      ((∀ d ∈ ds, Identifier.isDeclarationName d.name = true ∧
          ∀ name ∈ d.type.names, Identifier.isDeclarationName name = true) →
        ∀ name, LineAccepts (Module.mk none (ofDeclarations ds)).lines name v ↔
          Declaration.check? ds name v = some true) := by
  have hnames : Accepts (ofDeclarations ds) =
      fun name v ↦ Declaration.Accepts ds (.named name) v := by
    funext name v
    exact propext (accepts_ofDeclarations_iff hnd)
  have hcheck : ∀ name,
      Accepts (ofDeclarations ds) name v ↔ Declaration.check? ds name v = some true := by
    intro name
    rw [accepts_ofDeclarations_iff hnd, Declaration.check?_eq_some_iff]
    constructor
    · intro h
      cases h with
      | named hd h => exact ⟨_, hd, by simpa using h⟩
    · rintro ⟨i, hi, h⟩
      exact .named hi (h.1 rfl)
  refine ⟨hcheck, fun t ↦ ?_, fun hproper name ↦ ?_⟩
  · rw [hnames, CodecExpr.accepts_ofType_iff, Declaration.accepts_nil_iff]
  · rw [lineAccepts_lines_iff (wellNamed_of_mem_ofDeclarations hproper)]
    exact hcheck name

/-- A structure that names itself, with a compound literal and an optional field. -/
def chainDeclarations : List Declaration :=
  [⟨"Chain", .union [.interface [⟨"next", .named "Chain", true⟩,
    ⟨"kind", .literal (.object [("tag", .string "link")]), false⟩]]⟩]

/-- Two links, the first with a field that nobody asks for. -/
def chainValue : Json :=
  .object [("kind", .object [("tag", .string "link"), ("note", .null)]),
    ("next", .object [("kind", .object [("tag", .string "link")])])]

/-- The emitted constant accepts a chain of two links, and not a string; so does its line. -/
theorem accepts_chain :
    Accepts (ofDeclarations chainDeclarations) "Chain" chainValue ∧
      LineAccepts (Module.mk none (ofDeclarations chainDeclarations)).lines "Chain" chainValue ∧
      ¬Accepts (ofDeclarations chainDeclarations) "Chain" (.string "link") ∧
      ¬LineAccepts (Module.mk none (ofDeclarations chainDeclarations)).lines "Chain"
        (.string "link") := by
  have hnd : (chainDeclarations.map Declaration.name).Nodup := by decide
  have hproper : ∀ d ∈ chainDeclarations, Identifier.isDeclarationName d.name = true ∧
      ∀ name ∈ d.type.names, Identifier.isDeclarationName name = true := by decide
  have hchain : Declaration.check? chainDeclarations "Chain" chainValue = some true := by
    cbv
  have hstring : ¬Declaration.check? chainDeclarations "Chain" (.string "link") = some true := by
    have hcheck : Declaration.check? chainDeclarations "Chain" (.string "link") = some false := by
      cbv
    rw [hcheck]
    decide
  obtain ⟨haccepts, -, hlines⟩ := accepts_iff_check? hnd chainValue
  obtain ⟨haccepts', -, hlines'⟩ := accepts_iff_check? hnd (.string "link")
  exact ⟨(haccepts _).2 hchain, (hlines hproper _).2 hchain, mt (haccepts' _).1 hstring,
    mt (hlines' hproper _).1 hstring⟩

end Binding

end SchemaCodec
