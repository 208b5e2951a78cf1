import SchemaCodec.Proofs.Codec.Acceptance
import SchemaCodec.Proofs.Subtree

/-!
# The members of unions and intersections

An intersection takes at most five members, so `intersect` keeps four and nests the rest as the
fifth. In the codec of a type every intersection has two to five members and every union at least
two (`everywhere_hasArity_ofType`), whatever arms the type has: single arms are passed through, and
what is nested never shrinks below two.

Nesting loses nothing. If no member is an intersection itself, `intersect` gives an expression whose
intersections are those that nesting has introduced; opening the last member again and again gives
back the members (`flatten_intersect`). For the text it only counts what members are written as
(`text_intersect_congr`), so members may be given by their texts.
-/

namespace SchemaCodec.CodecExpr

/-! ### Members are counted everywhere -/

/-- The expressions that an expression is made of. -/
def children : CodecExpr → List CodecExpr
  | .tuple items => items
  | .array item => [item]
  | .record values => [values]
  | .struct properties => properties.map Prod.snd
  | .partialStruct properties => properties.map Prod.snd
  | .union members => members
  | .intersection members => members
  | _ => []

/-- The root of the expression has as many members as its combinator takes. -/
def HasArity : CodecExpr → Prop
  | .union members => 2 ≤ members.length
  | .intersection members => 2 ≤ members.length ∧ members.length ≤ 5
  | _ => True

variable {members : List CodecExpr}

/-- Nesting long intersections leaves at least two members on every level. -/
theorem everywhere_hasArity_intersect (hlen : 2 ≤ members.length)
    (h : ∀ e ∈ members, Everywhere children HasArity e) :
    Everywhere children HasArity (intersect members) := by
  fun_induction intersect members with
  | case1 members hlong ih =>
    simp only [maxMembers] at hlong ih ⊢
    -- at least six members, so at least two are left to nest
    have hrest : Everywhere children HasArity (intersect (members.drop (5 - 1))) :=
      ih (by rw [List.length_drop]; omega) fun e he ↦ h e (List.mem_of_mem_drop he)
    have harity : HasArity (.intersection (members.take (5 - 1) ++
        [intersect (members.drop (5 - 1))])) := by
      simp only [HasArity, List.length_append, List.length_take, List.length_singleton]
      omega
    exact everywhere_iff.2 ⟨harity, List.forall_mem_append.2
      ⟨fun e he ↦ h e (List.mem_of_mem_take he), List.forall_mem_singleton.2 hrest⟩⟩
  | case2 members hshort => exact everywhere_iff.2 ⟨⟨hlen, Nat.le_of_not_lt hshort⟩, h⟩

/-- A union of less than two arms is not written as one. -/
theorem everywhere_hasArity_ofUnion (h : ∀ e ∈ members, Everywhere children HasArity e) :
    Everywhere children HasArity (ofUnion members) := by
  match members with
  | [] => exact everywhere_of_leaf trivial rfl
  | [only] => exact h only List.mem_cons_self
  | first :: second :: rest =>
    have hlen : 2 ≤ (first :: second :: rest).length := by simp
    exact everywhere_iff.2 ⟨hlen, h⟩

/-- An intersection of less than two arms is not written as one. -/
theorem everywhere_hasArity_ofIntersection (h : ∀ e ∈ members, Everywhere children HasArity e) :
    Everywhere children HasArity (ofIntersection members) := by
  match members with
  | [] => exact everywhere_of_leaf trivial rfl
  | [only] => exact h only List.mem_cons_self
  | first :: second :: rest => exact everywhere_hasArity_intersect (by simp) h

/-- An interface is written as one structure, or as an intersection of two. -/
theorem everywhere_hasArity_ofInterface {fields : List (Field CodecExpr)}
    (h : ∀ f ∈ fields, Everywhere children HasArity f.type) :
    Everywhere children HasArity (ofInterface fields) := by
  have hproperties (optional : Bool) :
      ∀ e ∈ (properties optional fields).map Prod.snd, Everywhere children HasArity e := by
    refine List.forall_mem_map.2 fun p hp ↦ ?_
    obtain ⟨f, hf, -, rfl⟩ := mem_properties_iff.1 hp
    exact h f hf
  have hstruct : Everywhere children HasArity (.struct (properties false fields)) :=
    everywhere_iff.2 ⟨trivial, hproperties false⟩
  have hpartial : Everywhere children HasArity (.partialStruct (properties true fields)) :=
    everywhere_iff.2 ⟨trivial, hproperties true⟩
  rw [ofInterface]
  split
  · exact hstruct
  · exact hpartial
  · have hlen : HasArity (.intersection [.struct (properties false fields),
        .partialStruct (properties true fields)]) := ⟨le_refl 2, by simp⟩
    exact everywhere_iff.2
      ⟨hlen, List.forall_mem_cons.2 ⟨hstruct, List.forall_mem_singleton.2 hpartial⟩⟩

/-- The codec of a literal has neither unions nor intersections. -/
theorem everywhere_hasArity_ofLiteral (v : Json) : Everywhere children HasArity (ofLiteral v) := by
  induction v using Json.inductionOn with
  | scalar s => cases s <;> exact everywhere_of_leaf trivial rfl
  | array items ih =>
    rw [ofLiteral, ofLiterals_eq_map]
    exact everywhere_iff.2 ⟨trivial, List.forall_mem_map.2 ih⟩
  | object fields ih =>
    rw [ofLiteral, ofLiteralFields_eq_map]
    refine everywhere_iff.2 ⟨trivial, List.forall_mem_map.2 ?_⟩
    exact List.forall_mem_map.2 ih

/-- **Every combinator in the codec of a type has as many members as it takes.** -/
theorem everywhere_hasArity_ofType (t : TypeExpr) : Everywhere children HasArity (ofType t) := by
  induction t using TypeExpr.inductionOn with
  | null => exact everywhere_of_leaf trivial rfl
  | boolean => exact everywhere_of_leaf trivial rfl
  | number => exact everywhere_of_leaf trivial rfl
  | string => exact everywhere_of_leaf trivial rfl
  | named name => exact everywhere_of_leaf trivial rfl
  | literal value => exact everywhere_hasArity_ofLiteral value
  | array item ih => exact everywhere_iff.2 ⟨trivial, List.forall_mem_singleton.2 ih⟩
  | record values ih => exact everywhere_iff.2 ⟨trivial, List.forall_mem_singleton.2 ih⟩
  | interface fields ih =>
    rw [ofType, ofFields_eq_map]
    exact everywhere_hasArity_ofInterface (List.forall_mem_map.2 ih)
  | union arms ih =>
    rw [ofType, ofTypes_eq_map]
    exact everywhere_hasArity_ofUnion (List.forall_mem_map.2 ih)
  | intersection arms ih =>
    rw [ofType, ofTypes_eq_map]
    exact everywhere_hasArity_ofIntersection (List.forall_mem_map.2 ih)

/-! ### Nesting keeps the members -/

mutual

/-- The members of an intersection, the last one opened if it is an intersection in turn. -/
def flatten : CodecExpr → List CodecExpr
  | .intersection members => flattenLast members
  | e => [e]

/-- Expressions of which the last is opened. -/
def flattenLast : List CodecExpr → List CodecExpr
  | [] => []
  | [last] => last.flatten
  | e :: rest => e :: flattenLast rest

end

/-- Only the last member is flattened. -/
theorem flattenLast_concat (front : List CodecExpr) (last : CodecExpr) :
    flattenLast (front ++ [last]) = front ++ last.flatten := by
  induction front with
  | nil => rfl
  | cons e front ih =>
    rcases hrest : front ++ [last] with - | ⟨second, rest⟩
    · exact absurd hrest (by simp)
    · rw [List.cons_append, hrest, flattenLast, ← hrest, ih, List.cons_append]
      simp

/-- There is nothing to flatten where no member is an intersection. -/
theorem flattenLast_eq_self (h : ∀ e ∈ members, e.flatten = [e]) :
    flattenLast members = members := by
  rcases List.eq_nil_or_concat' members with rfl | ⟨front, last, rfl⟩
  · rfl
  · rw [flattenLast_concat, h last (by simp)]

/-- Opening what nesting has closed gives the members back, none of which is an intersection
itself. -/
theorem flatten_intersect (h : ∀ e ∈ members, e.flatten = [e]) :
    (intersect members).flatten = members := by
  fun_induction intersect members with
  | case1 members hlong ih =>
    rw [flatten, flattenLast_concat, ih fun e he ↦ h e (List.mem_of_mem_drop he),
      List.take_append_drop]
  | case2 members hshort => rw [flatten, flattenLast_eq_self h]

theorem textList_eq_map (members : List CodecExpr) : textList members = members.map text := by
  induction members with
  | nil => rfl
  | cons e members ih => rw [textList, ih, List.map_cons]

/-- The text of an intersection whose members have the given texts. -/
def intersectionText (texts : List String) : String :=
  "t.intersection([" ++ ", ".intercalate texts ++ "])"

theorem text_intersection (members : List CodecExpr) :
    (CodecExpr.intersection members).text = intersectionText (members.map text) :=
  congrArg intersectionText (textList_eq_map members)

/-- Too long an intersection is cut, and the rest becomes its last member. -/
theorem text_intersect_of_long (h : maxMembers < members.length) :
    (intersect members).text = intersectionText ((members.map text).take (maxMembers - 1) ++
      [(intersect (members.drop (maxMembers - 1))).text]) := by
  rw [intersect, if_pos h, text_intersection, List.map_append, List.map_take, List.map_singleton]

theorem text_intersect_of_short (h : ¬maxMembers < members.length) :
    (intersect members).text = intersectionText (members.map text) := by
  rw [intersect, if_neg h, text_intersection]

/-- Members that are written alike are nested alike. -/
theorem text_intersect_congr {members members' : List CodecExpr}
    (h : members.map text = members'.map text) :
    (intersect members).text = (intersect members').text := by
  induction hn : members.length using Nat.strong_induction_on generalizing members members' with
  | _ n ih =>
    have hlen : members.length = members'.length := by simpa using congrArg List.length h
    by_cases hlong : maxMembers < members.length
    · have hrest : (members.drop (maxMembers - 1)).map text =
          (members'.drop (maxMembers - 1)).map text := by
        rw [List.map_drop, List.map_drop, h]
      have hless : (members.drop (maxMembers - 1)).length < n := by
        simp only [List.length_drop, maxMembers] at hlong ⊢
        omega
      have hlong' : maxMembers < members'.length := hlen ▸ hlong
      rw [text_intersect_of_long hlong, text_intersect_of_long hlong', h, ih _ hless hrest rfl]
    · rw [text_intersect_of_short hlong, text_intersect_of_short (hlen ▸ hlong), h]

/-- **Intersections have two to five members and unions at least two, and nesting loses nothing.**
Two or more members, given by their texts, are nested within these bounds, and they are what remains
when every intersection that nesting has introduced is opened; the text of an intersection depends
on its members through their texts only. -/
theorem members_bounded_and_kept :
    (∀ (t : TypeExpr) (members : List CodecExpr),
      (Subtree children (.intersection members) (ofType t) →
        2 ≤ members.length ∧ members.length ≤ 5) ∧
      (Subtree children (.union members) (ofType t) → 2 ≤ members.length)) ∧
    ∀ texts : List String, 2 ≤ texts.length →
      Everywhere children HasArity (intersect (texts.map .reference)) ∧
      (intersect (texts.map .reference)).flatten = texts.map .reference ∧
      ∀ members : List CodecExpr, members.map text = texts →
        (intersect members).text = (intersect (texts.map .reference)).text := by
  refine ⟨fun t members ↦ ⟨fun h ↦ ?_, fun h ↦ ?_⟩, fun texts hlen ↦ ⟨?_, ?_, ?_⟩⟩
  · exact everywhere_hasArity_ofType t _ h
  · exact everywhere_hasArity_ofType t _ h
  · refine everywhere_hasArity_intersect ?_ (List.forall_mem_map.2 fun text _ ↦ ?_)
    · rwa [List.length_map]
    · exact everywhere_of_leaf trivial rfl
  · exact flatten_intersect (List.forall_mem_map.2 fun text _ ↦ rfl)
  · rintro members rfl
    refine text_intersect_congr ?_
    rw [List.map_map, List.map_map]
    rfl

/-- Six members, one more than an intersection takes; the last is an intersection in its own
right. -/
def sixMembers : List CodecExpr :=
  ["A", "B", "C", "D", "E"].map .reference ++ [.intersection [.reference "F", .reference "G"]]

/-- The texts of the six members. -/
def sixTexts : List String :=
  ["A", "B", "C", "D", "E", "t.intersection([F, G])"]

/-- A union, in it an interface with a required and an optional field. -/
def mixedType : TypeExpr :=
  .union [.null, .interface [⟨"a", .string, false⟩, ⟨"b", .string, true⟩]]

/-- Of two intersections at the end of another, only the one that nesting has introduced is opened;
and the union and the intersection in the codec of a type have two members. -/
theorem flatten_sixMembers :
    sixMembers.map text = sixTexts ∧
      (intersect sixMembers).text =
        "t.intersection([A, B, C, D, t.intersection([E, t.intersection([F, G])])])" ∧
      (intersect sixMembers).text = (intersect (sixTexts.map .reference)).text ∧
      (intersect (sixTexts.map .reference)).flatten = sixTexts.map .reference ∧
      ∃ union both, ofType mixedType = .union union ∧ .intersection both ∈ union ∧
        2 ≤ union.length ∧ 2 ≤ both.length ∧ both.length ≤ 5 := by
  obtain ⟨hbounded, hkept⟩ := members_bounded_and_kept
  have htexts : sixMembers.map text = sixTexts := by decide
  obtain ⟨-, hflatten, htext⟩ := hkept sixTexts (by decide)
  have hnested : intersect sixMembers = .intersection (sixMembers.take 4 ++
      [.intersection (sixMembers.drop 4)]) := by
    rw [intersect, if_pos (by decide), intersect, if_neg (by decide)]
    rfl
  refine ⟨htexts, ?_, htext sixMembers htexts, hflatten, _, _, rfl,
    List.mem_cons_of_mem _ List.mem_cons_self, (hbounded mixedType _).2 .refl,
    (hbounded mixedType _).1 (.single (List.mem_cons_of_mem _ List.mem_cons_self))⟩
  rw [hnested]
  rfl

end SchemaCodec.CodecExpr
