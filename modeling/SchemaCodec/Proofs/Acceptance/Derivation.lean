import SchemaCodec.Proofs.Declaration.Denotation
import SchemaCodec.Proofs.Json.Matching

/-!
# Derivations of acceptance

`Accepts ds t v` is the least relation that the meaning of types asks for: a name accepts what the
declaration it denotes accepts, a union what some arm accepts, an intersection what every arm
accepts, and arrays, records and interfaces look at the parts of the value. There is no guard in it,
and a name that only leads back to itself accepts nothing because derivations are finite.

The recursive test `accepts` carries a guard instead. This module says what one step of the test
does (`accepts_named_iff` and its siblings), packages its recursion as one induction over types
(`accepts_induction`), and proves the easy half of the comparison: whatever the guard, an accepted
value has a derivation (`derivation_of_accepts`).
-/

namespace SchemaCodec.Declaration

variable {ds : List Declaration}

/-- The values that a type accepts, declarations being given. -/
inductive Accepts (ds : List Declaration) : TypeExpr → Json → Prop
  | null : Accepts ds .null .null
  | boolean (b : Bool) : Accepts ds .boolean (.scalar (.bool b))
  | number (n : Json.Number) : Accepts ds .number (.scalar (.number n))
  | string (s : String) : Accepts ds .string (.string s)
  | literal {wanted v : Json} (h : wanted.Matches v) : Accepts ds (.literal wanted) v
  | named {name : String} {i : Fin ds.length} {v : Json} (hd : Denotes ds name i)
      (h : Accepts ds (ds.get i).type v) : Accepts ds (.named name) v
  | array {item : TypeExpr} {items : List Json} (h : ∀ x ∈ items, Accepts ds item x) :
      Accepts ds (.array item) (.array items)
  | record {values : TypeExpr} {fields : List (String × Json)}
      (h : ∀ p ∈ fields, Accepts ds values p.2) : Accepts ds (.record values) (.object fields)
  | interface {members : List (Field TypeExpr)} {fields : List (String × Json)}
      (hpresent : ∀ m ∈ members, ∀ x, Entries.get? m.name fields = some x → Accepts ds m.type x)
      (habsent : ∀ m ∈ members, Entries.get? m.name fields = none → m.optional = true) :
      Accepts ds (.interface members) (.object fields)
  | union {arms : List TypeExpr} {arm : TypeExpr} {v : Json} (hmem : arm ∈ arms)
      (h : Accepts ds arm v) : Accepts ds (.union arms) v
  | intersection {arms : List TypeExpr} {v : Json} (h : ∀ arm ∈ arms, Accepts ds arm v) :
      Accepts ds (.intersection arms) v

/-! ### One step of the test -/

section Step

variable {guard : List String} {v : Json}

theorem accepts_null_iff : accepts ds guard .null v = true ↔ v = .null := by
  unfold accepts
  split <;> simp_all

theorem accepts_boolean_iff :
    accepts ds guard .boolean v = true ↔ ∃ b, v = .scalar (.bool b) := by
  unfold accepts
  split <;> simp_all

theorem accepts_number_iff :
    accepts ds guard .number v = true ↔ ∃ n, v = .scalar (.number n) := by
  unfold accepts
  split <;> simp_all

theorem accepts_string_iff : accepts ds guard .string v = true ↔ ∃ s, v = .string s := by
  unfold accepts
  split <;> simp_all

/-- A literal is compared by value, inside compound literals too. -/
theorem accepts_literal_iff {wanted : Json} :
    accepts ds guard (.literal wanted) v = true ↔ wanted.Matches v := by
  rw [accepts, Json.isMatch_iff_matches]

/-- A name outside the guard is entered, and enters the guard. -/
theorem accepts_named_iff {name : String} :
    accepts ds guard (.named name) v = true ↔
      name ∉ guard ∧
        ∃ i, Denotes ds name i ∧ accepts ds (name :: guard) (ds.get i).type v = true := by
  rw [accepts]
  split
  · next h =>
    rw [typeOf?_eq_none_iff] at h
    simp only [Bool.false_eq_true, false_iff, not_and, not_exists]
    exact fun _ i hi _ ↦ h _ (ds.get_mem i) hi.name_eq
  · next t h =>
    obtain ⟨i, hi, rfl⟩ := typeOf?_eq_some_iff.1 h
    split
    · next hg => simp [hg]
    · next hg =>
      refine ⟨fun hv ↦ ⟨hg, i, hi, hv⟩, ?_⟩
      rintro ⟨-, j, hj, hv⟩
      obtain rfl := hi.unique hj
      exact hv

/-- Items of an array start with an empty guard. -/
theorem accepts_array_iff {item : TypeExpr} :
    accepts ds guard (.array item) v = true ↔
      ∃ items, v = .array items ∧ ∀ x ∈ items, accepts ds [] item x = true := by
  cases v <;> simp [accepts]

/-- Values of a record start with an empty guard. -/
theorem accepts_record_iff {values : TypeExpr} :
    accepts ds guard (.record values) v = true ↔
      ∃ fields, v = .object fields ∧ ∀ p ∈ fields, accepts ds [] values p.2 = true := by
  cases v <;> simp [accepts]

/-- Members of an interface start with an empty guard. -/
theorem accepts_interface_iff {members : List (Field TypeExpr)} :
    accepts ds guard (.interface members) v = true ↔
      ∃ fields, v = .object fields ∧
        (∀ m ∈ members, ∀ x, Entries.get? m.name fields = some x →
          accepts ds [] m.type x = true) ∧
        ∀ m ∈ members, Entries.get? m.name fields = none → m.optional = true := by
  cases v with
  | object fields =>
    simp only [accepts, List.all_eq_true, Json.object.injEq, exists_eq_left']
    rw [← forall₂_and]
    refine forall₂_congr fun m _ ↦ ?_
    split <;> simp_all
  | scalar s => simp [accepts]
  | array items => simp [accepts]

/-- A union accepts what one of its arms accepts, and nothing if it has none. -/
theorem accepts_union_iff {arms : List TypeExpr} :
    accepts ds guard (.union arms) v = true ↔ ∃ arm ∈ arms, accepts ds guard arm v = true := by
  rw [accepts]
  simp

/-- An intersection accepts what all of its arms accept, and everything if it has none. -/
theorem accepts_intersection_iff {arms : List TypeExpr} :
    accepts ds guard (.intersection arms) v = true ↔
      ∀ arm ∈ arms, accepts ds guard arm v = true := by
  rw [accepts]
  simp

end Step

/-! ### The recursion of the test -/

/-- **Induction along the test.** One case for each type: a name may assume the statement of its
declaration under the longer guard, arms under the same guard, and parts of the value under the
empty one. -/
theorem accepts_induction (ds : List Declaration) {motive : List String → TypeExpr → Json → Prop}
    (null : ∀ guard v, motive guard .null v) (boolean : ∀ guard v, motive guard .boolean v)
    (number : ∀ guard v, motive guard .number v) (string : ∀ guard v, motive guard .string v)
    (literal : ∀ guard wanted v, motive guard (.literal wanted) v)
    (named : ∀ guard name v,
      (∀ i, Denotes ds name i → name ∉ guard → motive (name :: guard) (ds.get i).type v) →
        motive guard (.named name) v)
    (array : ∀ guard item v,
      (∀ items, v = .array items → ∀ x ∈ items, motive [] item x) → motive guard (.array item) v)
    (record : ∀ guard values v,
      (∀ fields, v = .object fields → ∀ p ∈ fields, motive [] values p.2) →
        motive guard (.record values) v)
    (interface : ∀ guard members v,
      (∀ fields, v = .object fields → ∀ m ∈ members, ∀ x,
        Entries.get? m.name fields = some x → motive [] m.type x) →
          motive guard (.interface members) v)
    (union : ∀ guard arms v, (∀ arm ∈ arms, motive guard arm v) → motive guard (.union arms) v)
    (intersection : ∀ guard arms v, (∀ arm ∈ arms, motive guard arm v) →
      motive guard (.intersection arms) v)
    (guard : List String) (t : TypeExpr) (v : Json) : motive guard t v := by
  induction guard, t, v using accepts.induct ds with
  | case1 guard | case2 guard => exact null guard _
  | case3 guard | case4 guard => exact boolean guard _
  | case5 guard | case6 guard => exact number guard _
  | case7 guard | case8 guard => exact string guard _
  | case9 guard v wanted => exact literal guard wanted v
  | case10 guard v name h =>
    -- nothing is denoted, or the guard has the name: there is no case to consider
    refine named guard name v fun i hi _ ↦ ?_
    exact absurd hi.name_eq (typeOf?_eq_none_iff.1 h _ (ds.get_mem i))
  | case11 guard v name t h hg => exact named guard name v fun i _ hg' ↦ absurd hg hg'
  | case12 guard v name t h hg _ ih =>
    refine named guard name v fun i hi _ ↦ ?_
    obtain ⟨j, hj, rfl⟩ := typeOf?_eq_some_iff.1 h
    rwa [hi.unique hj]
  | case13 guard item items ih =>
    refine array guard item _ ?_
    rintro _ ⟨⟩ x hx
    exact ih ⟨x, hx⟩
  | case14 guard v item h => exact array guard item v fun items hv ↦ (h items hv).elim
  | case15 guard values fields ih =>
    refine record guard values _ ?_
    rintro _ ⟨⟩ p hp
    exact ih ⟨p, hp⟩
  | case16 guard v values h => exact record guard values v fun fields hv ↦ (h fields hv).elim
  | case17 guard members fields ih =>
    refine interface guard members _ ?_
    rintro _ ⟨⟩ m - x hx
    exact ih m x hx
  | case18 guard v members h =>
    exact interface guard members v fun fields hv ↦ (h fields hv).elim
  | case19 guard v arms ih => exact union guard arms v fun arm harm ↦ ih ⟨arm, harm⟩
  | case20 guard v arms ih => exact intersection guard arms v fun arm harm ↦ ih ⟨arm, harm⟩

/-- **Soundness, under any guard.** The guard only ever refuses, so what passes has a derivation. -/
theorem derivation_of_accepts {guard : List String} {t : TypeExpr} {v : Json}
    (h : accepts ds guard t v = true) : Accepts ds t v := by
  induction guard, t, v using accepts_induction ds with
  | null guard v =>
    obtain rfl := accepts_null_iff.1 h
    exact .null
  | boolean guard v =>
    obtain ⟨b, rfl⟩ := accepts_boolean_iff.1 h
    exact .boolean b
  | number guard v =>
    obtain ⟨n, rfl⟩ := accepts_number_iff.1 h
    exact .number n
  | string guard v =>
    obtain ⟨s, rfl⟩ := accepts_string_iff.1 h
    exact .string s
  | literal guard wanted v => exact .literal (accepts_literal_iff.1 h)
  | named guard name v ih =>
    obtain ⟨hg, i, hi, hv⟩ := accepts_named_iff.1 h
    exact .named hi (ih i hi hg hv)
  | array guard item v ih =>
    obtain ⟨items, rfl, hitems⟩ := accepts_array_iff.1 h
    exact .array fun x hx ↦ ih items rfl x hx (hitems x hx)
  | record guard values v ih =>
    obtain ⟨fields, rfl, hfields⟩ := accepts_record_iff.1 h
    exact .record fun p hp ↦ ih fields rfl p hp (hfields p hp)
  | interface guard members v ih =>
    obtain ⟨fields, rfl, hpresent, habsent⟩ := accepts_interface_iff.1 h
    exact .interface (fun m hm x hx ↦ ih fields rfl m hm x hx (hpresent m hm x hx)) habsent
  | union guard arms v ih =>
    obtain ⟨arm, harm, hv⟩ := accepts_union_iff.1 h
    exact .union harm (ih arm harm hv)
  | intersection guard arms v ih =>
    exact .intersection fun arm harm ↦ ih arm harm (accepts_intersection_iff.1 h arm harm)

end SchemaCodec.Declaration
