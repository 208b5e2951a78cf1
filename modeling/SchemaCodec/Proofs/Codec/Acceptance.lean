import SchemaCodec.Module
import SchemaCodec.Proofs.Acceptance.Guard
import SchemaCodec.Proofs.TypeExpr.Names

/-!
# What the emitted codecs accept

`CodecExpr.Accepts names e v` is the documented acceptance of each combinator on JSON data, given
what the constants of the module accept: a structure needs every listed property, a partial one
tolerates missing properties, a tuple has a fixed length, literals compare by value. On top of it,
`Binding.Accepts` is the least meaning that the constants can have: a constant accepts what its own
codec accepts, whether that is built at once or on first use.

The codec of a type is put together differently from the type. Interfaces are split by optionality,
unions and intersections of less than two arms disappear, long intersections nest, and compound
literals become structures and tuples. Each of these steps has its equation here
(`accepts_ofInterface_iff` and its siblings), so that the comparison with the acceptance of types is
one induction over types (`accepts_of_accepts_ofType`) and one over derivations
(`accepts_ofType_of_accepts`).
-/

namespace SchemaCodec

namespace CodecExpr

/-! ### Codecs of lists -/

theorem ofLiterals_eq_map (items : List Json) : ofLiterals items = items.map ofLiteral := by
  induction items with
  | nil => rfl
  | cons v items ih => rw [ofLiterals, ih, List.map_cons]

theorem ofLiteralFields_eq_map (fields : List (String × Json)) :
    ofLiteralFields fields = fields.map fun p ↦ (p.1, ofLiteral p.2) := by
  induction fields with
  | nil => rfl
  | cons p fields ih => rw [ofLiteralFields, ih, List.map_cons]

theorem ofTypes_eq_map (arms : List TypeExpr) : ofTypes arms = arms.map ofType := by
  induction arms with
  | nil => rfl
  | cons t arms ih => rw [ofTypes, ih, List.map_cons]

theorem ofFields_eq_map (fields : List (Field TypeExpr)) :
    ofFields fields = fields.map fun f ↦ ⟨f.name, ofType f.type, f.optional⟩ := by
  induction fields with
  | nil => rfl
  | cons f fields ih => rw [ofFields, ih, List.map_cons]

/-! ### Acceptance -/

/-- The values that a codec accepts when the constants of the module accept `names`. -/
inductive Accepts (names : String → Json → Prop) : CodecExpr → Json → Prop
  | null : Accepts names .null .null
  | boolean (b : Bool) : Accepts names .boolean (.scalar (.bool b))
  | number (n : Json.Number) : Accepts names .number (.scalar (.number n))
  | string (s : String) : Accepts names .string (.string s)
  | unknown (v : Json) : Accepts names .unknown v
  | reference {name : String} {v : Json} (h : names name v) : Accepts names (.reference name) v
  | literal {wanted s : Json.Scalar} (h : wanted.Matches s) :
      Accepts names (.literal wanted) (.scalar s)
  | tuple {es : List CodecExpr} {items : List Json} (hlen : es.length = items.length)
      (h : ∀ (i : ℕ) (e : CodecExpr) (v : Json), es[i]? = some e → items[i]? = some v →
        Accepts names e v) : Accepts names (.tuple es) (.array items)
  | array {item : CodecExpr} {items : List Json} (h : ∀ v ∈ items, Accepts names item v) :
      Accepts names (.array item) (.array items)
  | record {values : CodecExpr} {fields : List (String × Json)}
      (h : ∀ p ∈ fields, Accepts names values p.2) : Accepts names (.record values) (.object fields)
  | struct {properties : List (String × CodecExpr)} {fields : List (String × Json)}
      (hpresent : ∀ p ∈ properties, (Entries.get? p.1 fields).isSome)
      (h : ∀ p ∈ properties, ∀ v, Entries.get? p.1 fields = some v → Accepts names p.2 v) :
      Accepts names (.struct properties) (.object fields)
  | partialStruct {properties : List (String × CodecExpr)} {fields : List (String × Json)}
      (h : ∀ p ∈ properties, ∀ v, Entries.get? p.1 fields = some v → Accepts names p.2 v) :
      Accepts names (.partialStruct properties) (.object fields)
  | union {members : List CodecExpr} {e : CodecExpr} {v : Json} (hmem : e ∈ members)
      (h : Accepts names e v) : Accepts names (.union members) v
  | intersection {members : List CodecExpr} {v : Json} (h : ∀ e ∈ members, Accepts names e v) :
      Accepts names (.intersection members) v

variable {names : String → Json → Prop} {v : Json}

/-- A structure accepts objects with every listed property, and right values in them. -/
theorem accepts_struct_iff {properties : List (String × CodecExpr)} :
    Accepts names (.struct properties) v ↔ ∃ fields, v = .object fields ∧
      (∀ p ∈ properties, (Entries.get? p.1 fields).isSome) ∧
        ∀ p ∈ properties, ∀ x, Entries.get? p.1 fields = some x → Accepts names p.2 x := by
  constructor
  · intro h
    cases h with
    | struct hpresent h => exact ⟨_, rfl, hpresent, h⟩
  · rintro ⟨fields, rfl, hpresent, h⟩
    exact .struct hpresent h

/-- A partial structure accepts objects with right values in the listed properties they have. -/
theorem accepts_partialStruct_iff {properties : List (String × CodecExpr)} :
    Accepts names (.partialStruct properties) v ↔ ∃ fields, v = .object fields ∧
      ∀ p ∈ properties, ∀ x, Entries.get? p.1 fields = some x → Accepts names p.2 x := by
  constructor
  · intro h
    cases h with
    | partialStruct h => exact ⟨_, rfl, h⟩
  · rintro ⟨fields, rfl, h⟩
    exact .partialStruct h

theorem accepts_union_iff {members : List CodecExpr} :
    Accepts names (.union members) v ↔ ∃ e ∈ members, Accepts names e v := by
  constructor
  · intro h
    cases h with
    | union hmem h => exact ⟨_, hmem, h⟩
  · rintro ⟨e, hmem, h⟩
    exact .union hmem h

theorem accepts_intersection_iff {members : List CodecExpr} :
    Accepts names (.intersection members) v ↔ ∀ e ∈ members, Accepts names e v := by
  constructor
  · intro h
    cases h with
    | intersection h => exact h
  · exact .intersection

/-! ### The expressions that types are turned into -/

/-- Nesting the tail of a long intersection changes nothing. -/
theorem accepts_intersect_iff {members : List CodecExpr} :
    Accepts names (intersect members) v ↔ ∀ e ∈ members, Accepts names e v := by
  induction members using intersect.induct with
  | case1 members hlong ih =>
    rw [intersect, if_pos hlong, accepts_intersection_iff]
    conv_rhs => rw [← List.take_append_drop (maxMembers - 1) members]
    simp only [List.forall_mem_append, List.forall_mem_singleton, ih]
  | case2 members hshort => rw [intersect, if_neg hshort, accepts_intersection_iff]

/-- The codec of a union accepts what some arm accepts, however many arms there are. -/
theorem accepts_ofUnion_iff {arms : List CodecExpr} :
    Accepts names (ofUnion arms) v ↔ ∃ e ∈ arms, Accepts names e v := by
  match arms with
  | [] =>
    constructor
    · intro h
      cases h
    · rintro ⟨e, he, -⟩
      exact absurd he List.not_mem_nil
  | [only] => simp [ofUnion]
  | a :: b :: rest => exact accepts_union_iff

/-- The codec of an intersection accepts what every arm accepts, however the arms are nested. -/
theorem accepts_ofIntersection_iff {arms : List CodecExpr} :
    Accepts names (ofIntersection arms) v ↔ ∀ e ∈ arms, Accepts names e v := by
  match arms with
  | [] => exact ⟨fun _ e he ↦ absurd he List.not_mem_nil, fun _ ↦ .unknown v⟩
  | [only] => simp [ofIntersection]
  | a :: b :: rest => exact accepts_intersect_iff

/-- The listed properties are the fields of one optionality. -/
theorem mem_properties_iff {optional : Bool} {fields : List (Field CodecExpr)}
    {p : String × CodecExpr} :
    p ∈ properties optional fields ↔
      ∃ f ∈ fields, f.optional = optional ∧ (f.name, f.type) = p := by
  simp [properties, and_assoc]

/-- The codec of an interface, however it is put together, is a structure of the required fields and
a partial one of the others. -/
theorem accepts_ofInterface_iff_and {members : List (Field CodecExpr)} :
    Accepts names (ofInterface members) v ↔
      Accepts names (.struct (properties false members)) v ∧
        Accepts names (.partialStruct (properties true members)) v := by
  unfold ofInterface
  split
  · next hoptional =>
    -- a structure without optional fields accepts objects only
    rw [hoptional, accepts_struct_iff, accepts_partialStruct_iff]
    refine (and_iff_left_of_imp ?_).symm
    rintro ⟨fields, rfl, -⟩
    exact ⟨fields, rfl, by simp⟩
  · next hrequired _ =>
    rw [hrequired, accepts_struct_iff, accepts_partialStruct_iff]
    refine (and_iff_right_of_imp ?_).symm
    rintro ⟨fields, rfl, -⟩
    exact ⟨fields, rfl, by simp⟩
  · rw [accepts_intersection_iff]
    simp

/-- An interface asks of each field that it be accepted where it is present, and present unless it
is optional. -/
theorem accepts_ofInterface_iff {members : List (Field CodecExpr)} :
    Accepts names (ofInterface members) v ↔ ∃ fields, v = .object fields ∧
      (∀ m ∈ members, ∀ x, Entries.get? m.name fields = some x → Accepts names m.type x) ∧
        ∀ m ∈ members, Entries.get? m.name fields = none → m.optional = true := by
  rw [accepts_ofInterface_iff_and, accepts_struct_iff, accepts_partialStruct_iff]
  constructor
  · rintro ⟨⟨fields, rfl, hpresent, hrequired⟩, fields', hfields, hoptional⟩
    obtain rfl := Json.object.inj hfields
    refine ⟨fields, rfl, fun m hm x hx ↦ ?_, fun m hm hnone ↦ ?_⟩
    · rcases hm' : m.optional
      · exact hrequired _ (mem_properties_iff.2 ⟨m, hm, hm', rfl⟩) x hx
      · exact hoptional _ (mem_properties_iff.2 ⟨m, hm, hm', rfl⟩) x hx
    · by_contra hm'
      have hsome := hpresent _ (mem_properties_iff.2 ⟨m, hm, by simpa using hm', rfl⟩)
      rw [hnone] at hsome
      exact absurd hsome (by simp)
  · rintro ⟨fields, rfl, hpresent, habsent⟩
    refine ⟨⟨fields, rfl, fun p hp ↦ ?_, fun p hp x hx ↦ ?_⟩, fields, rfl, fun p hp x hx ↦ ?_⟩
    all_goals obtain ⟨m, hm, hm', rfl⟩ := mem_properties_iff.1 hp
    · by_contra hnone
      have := habsent m hm (by simpa using hnone)
      rw [hm'] at this
      exact absurd this (by simp)
    · exact hpresent m hm x hx
    · exact hpresent m hm x hx

/-! ### Literals -/

/-- The codec of a scalar literal accepts what matches the scalar; for `null` it is not written as a
literal. -/
theorem accepts_ofLiteral_scalar_iff {a : Json.Scalar} :
    Accepts names (ofLiteral (.scalar a)) v ↔ Json.Matches (.scalar a) v := by
  constructor
  · intro h
    cases a with
    | null =>
      rw [ofLiteral] at h
      cases h
      exact .scalar (.equal _)
    | bool b =>
      cases h with
      | literal h => exact .scalar h
    | number n =>
      cases h with
      | literal h => exact .scalar h
    | string s =>
      cases h with
      | literal h => exact .scalar h
  · intro h
    cases h with
    | scalar h =>
      cases a with
      | null =>
        cases h
        exact .null
      | bool b => exact .literal h
      | number n => exact .literal h
      | string s => exact .literal h

/-- **A compound literal becomes a codec that accepts what matches it.** -/
theorem accepts_ofLiteral_iff {w : Json} : Accepts names (ofLiteral w) v ↔ w.Matches v := by
  induction w using Json.inductionOn generalizing v with
  | scalar a => exact accepts_ofLiteral_scalar_iff
  | array ws ih =>
    rw [ofLiteral, ofLiterals_eq_map]
    constructor
    · intro h
      cases h with
      | tuple hlen h =>
        refine .array (by simpa using hlen) fun i w x hw hx ↦ ?_
        exact (ih w (List.mem_of_getElem? hw)).1 (h i _ x (by simp [hw]) hx)
    · intro h
      cases h with
      | array hlen h =>
        refine .tuple (by simpa using hlen) fun i e x he hx ↦ ?_
        obtain ⟨w, hw, rfl⟩ := by simpa using he
        exact (ih w (List.mem_of_getElem? hw)).2 (h i w x hw hx)
  | object ws ih =>
    rw [ofLiteral, ofLiteralFields_eq_map, accepts_struct_iff]
    constructor
    · rintro ⟨fields, rfl, hpresent, h⟩
      refine .object (fun p hp ↦ ?_) fun p hp x hx ↦ ?_
      · exact hpresent (p.1, ofLiteral p.2) (List.mem_map_of_mem hp)
      · exact (ih p hp).1 (h _ (List.mem_map_of_mem hp) x hx)
    · intro h
      cases h with
      | object hpresent h =>
        refine ⟨_, rfl, fun p hp ↦ ?_, fun p hp x hx ↦ ?_⟩
        all_goals obtain ⟨q, hq, rfl⟩ := List.mem_map.1 hp
        · exact hpresent q hq
        · exact (ih q hq).2 (h q hq x hx)

/-! ### Types -/

section Types

variable {ds : List Declaration} {t : TypeExpr}

/-- **What the codec of a type accepts, the type accepts**, if names mean the declarations they
denote. -/
theorem accepts_of_accepts_ofType
    (h : Accepts (fun name v ↦ Declaration.Accepts ds (.named name) v) (ofType t) v) :
    Declaration.Accepts ds t v := by
  induction t using TypeExpr.inductionOn generalizing v with
  | null =>
    cases h
    exact .null
  | boolean =>
    cases h with
    | boolean b => exact .boolean b
  | number =>
    cases h with
    | number n => exact .number n
  | string =>
    cases h with
    | string s => exact .string s
  | named name =>
    cases h with
    | reference h => exact h
  | literal value => exact .literal (accepts_ofLiteral_iff.1 h)
  | array item ih =>
    cases h with
    | array h => exact .array fun x hx ↦ ih (h x hx)
  | record values ih =>
    cases h with
    | record h => exact .record fun p hp ↦ ih (h p hp)
  | interface members ih =>
    rw [ofType, ofFields_eq_map] at h
    obtain ⟨fields, rfl, hpresent, habsent⟩ := accepts_ofInterface_iff.1 h
    refine .interface (fun m hm x hx ↦ ih m hm ?_) fun m hm hnone ↦ ?_
    · exact hpresent _ (List.mem_map_of_mem hm) x hx
    · exact habsent _ (List.mem_map_of_mem hm) hnone
  | union arms ih =>
    rw [ofType, ofTypes_eq_map, accepts_ofUnion_iff] at h
    obtain ⟨e, he, h⟩ := h
    obtain ⟨arm, harm, rfl⟩ := List.mem_map.1 he
    exact .union harm (ih arm harm h)
  | intersection arms ih =>
    rw [ofType, ofTypes_eq_map, accepts_ofIntersection_iff] at h
    exact .intersection fun arm harm ↦ ih arm harm (h _ (List.mem_map_of_mem harm))

/-- **What a type accepts, its codec accepts**, whatever names mean, as long as each accepts at
least what the codec of the declaration it denotes accepts. -/
theorem accepts_ofType_of_accepts
    (hnames : ∀ name i v, Declaration.Denotes ds name i → Accepts names (ofType (ds.get i).type) v →
      names name v)
    (h : Declaration.Accepts ds t v) : Accepts names (ofType t) v := by
  induction h with
  | null => exact .null
  | boolean b => exact .boolean b
  | number n => exact .number n
  | string s => exact .string s
  | literal h => exact accepts_ofLiteral_iff.2 h
  | named hd _ ih => exact .reference (hnames _ _ _ hd ih)
  | array _ ih => exact .array ih
  | record _ ih => exact .record ih
  | interface _ habsent ih =>
    rw [ofType, ofFields_eq_map, accepts_ofInterface_iff]
    refine ⟨_, rfl, fun m hm x hx ↦ ?_, fun m hm hnone ↦ ?_⟩
    all_goals obtain ⟨f, hf, rfl⟩ := List.mem_map.1 hm
    · exact ih f hf x hx
    · exact habsent f hf hnone
  | union hmem _ ih =>
    rw [ofType, ofTypes_eq_map, accepts_ofUnion_iff]
    exact ⟨_, List.mem_map_of_mem hmem, ih⟩
  | intersection _ ih =>
    rw [ofType, ofTypes_eq_map, accepts_ofIntersection_iff]
    intro e he
    obtain ⟨arm, harm, rfl⟩ := List.mem_map.1 he
    exact ih arm harm

/-- **The codec of a type accepts what the type accepts.** -/
theorem accepts_ofType_iff :
    Accepts (fun name v ↦ Declaration.Accepts ds (.named name) v) (ofType t) v ↔
      Declaration.Accepts ds t v :=
  ⟨accepts_of_accepts_ofType,
    accepts_ofType_of_accepts fun _ _ _ hd h ↦ .named hd (accepts_of_accepts_ofType h)⟩

end Types

end CodecExpr

/-! ### Constants -/

namespace Binding

/-- What the constants of a module accept: the least relation under which each accepts what its
codec accepts. A codec that is built on first use is the same codec. -/
inductive Accepts (bindings : List Binding) : String → Json → Prop
  | codec {b : Binding} {v : Json} (hb : b ∈ bindings)
      (h : CodecExpr.Accepts (Accepts bindings) b.codec v) : Accepts bindings b.name v

/-- Any meaning of the constants that is closed under their codecs includes this one. -/
theorem Accepts.least {bindings : List Binding} {names : String → Json → Prop}
    (hnames : ∀ b ∈ bindings, ∀ v, CodecExpr.Accepts names b.codec v → names b.name v)
    {name : String} {v : Json} (h : Accepts bindings name v) : names name v :=
  @Accepts.rec bindings (fun name v _ ↦ names name v) (fun e v _ ↦ CodecExpr.Accepts names e v)
    (fun hb _ ih ↦ hnames _ hb _ ih) .null .boolean .number .string .unknown
    (fun _ ih ↦ .reference ih) (fun h ↦ .literal h) (fun hlen _ ih ↦ .tuple hlen ih)
    (fun _ ih ↦ .array ih) (fun _ ih ↦ .record ih) (fun hpresent _ ih ↦ .struct hpresent ih)
    (fun _ ih ↦ .partialStruct ih) (fun hmem _ ih ↦ .union hmem ih)
    (fun _ ih ↦ .intersection ih) name v h

variable {ds : List Declaration} {b : Binding} {name : String} {v : Json}

/-- Each declaration has its binding, which is deferred as its place requires. -/
theorem mem_ofDeclarations_iff :
    b ∈ ofDeclarations ds ↔
      ∃ i : Fin ds.length,
        b = ⟨(ds.get i).name, (ds.get i).type, refersForward ds i (ds.get i).type⟩ := by
  rw [ofDeclarations, List.mem_mapIdx]
  constructor
  · rintro ⟨i, hi, rfl⟩
    exact ⟨⟨i, hi⟩, rfl⟩
  · rintro ⟨i, rfl⟩
    exact ⟨i, i.isLt, rfl⟩

/-- With distinct names, the constants mean the declarations. -/
theorem accepts_ofDeclarations_iff (hnd : (ds.map Declaration.name).Nodup) :
    Accepts (ofDeclarations ds) name v ↔ Declaration.Accepts ds (.named name) v := by
  constructor
  · refine @Accepts.least _ (fun name v ↦ Declaration.Accepts ds (.named name) v) ?_ _ _
    intro b hb v h
    obtain ⟨i, rfl⟩ := mem_ofDeclarations_iff.1 hb
    exact .named (Declaration.denotes_get hnd i) (CodecExpr.accepts_of_accepts_ofType h)
  · intro h
    have hcodec : CodecExpr.Accepts (Accepts (ofDeclarations ds)) (.reference name) v := by
      refine CodecExpr.accepts_ofType_of_accepts (fun name i v hi h ↦ ?_) h
      obtain rfl := hi.name_eq
      exact .codec (mem_ofDeclarations_iff.2 ⟨i, rfl⟩) h
    cases hcodec with
    | reference h => exact h

end Binding

end SchemaCodec
