import SchemaCodec.Proofs.Acceptance.Derivation

/-!
# The guard against cycles is exact

Entering a name again on the same value is refused. That this never costs an acceptance is not
immediate: inside an intersection a name may be met again although an outer union would still
succeed some other way, so a derivation has to be shortened first.

The shortening is `accepts_cons_or`: if a value passes under a guard, then with one more name in the
guard it still passes, *unless* it passes for that name's own declaration under the longer guard.
The second alternative is what a repeated name on a path looks like from outside — the inner visit
alone was enough. Asked of the declaration itself, both alternatives say the same
(`accepts_named_nil_iff`), and completeness is an induction on derivations with the guard empty
throughout.
-/

namespace SchemaCodec.Declaration

variable {ds : List Declaration} {guard : List String} {t : TypeExpr} {v : Json}

/-- A shorter guard refuses less. -/
theorem accepts_of_subset {less : List String} (hsub : less ⊆ guard)
    (h : accepts ds guard t v = true) : accepts ds less t v = true := by
  induction guard, t, v using accepts_induction ds generalizing less with
  | null guard v => exact accepts_null_iff.2 (accepts_null_iff.1 h)
  | boolean guard v => exact accepts_boolean_iff.2 (accepts_boolean_iff.1 h)
  | number guard v => exact accepts_number_iff.2 (accepts_number_iff.1 h)
  | string guard v => exact accepts_string_iff.2 (accepts_string_iff.1 h)
  | literal guard wanted v => exact accepts_literal_iff.2 (accepts_literal_iff.1 h)
  | named guard name v ih =>
    obtain ⟨hg, i, hi, hv⟩ := accepts_named_iff.1 h
    refine accepts_named_iff.2 ⟨fun hmem ↦ hg (hsub hmem), i, hi, ?_⟩
    exact ih i hi hg (List.cons_subset_cons name hsub) hv
  -- parts of the value never see the guard
  | array guard item v => exact accepts_array_iff.2 (accepts_array_iff.1 h)
  | record guard values v => exact accepts_record_iff.2 (accepts_record_iff.1 h)
  | interface guard members v => exact accepts_interface_iff.2 (accepts_interface_iff.1 h)
  | union guard arms v ih =>
    obtain ⟨arm, harm, hv⟩ := accepts_union_iff.1 h
    exact accepts_union_iff.2 ⟨arm, harm, ih arm harm hsub hv⟩
  | intersection guard arms v ih =>
    refine accepts_intersection_iff.2 fun arm harm ↦ ?_
    exact ih arm harm hsub (accepts_intersection_iff.1 h arm harm)

/-- **Shortening.** Guarding one more name keeps an acceptance, or else the value passes for the
declaration of that name, already guarded. -/
theorem accepts_cons_or {name : String} {i : Fin ds.length} (hi : Denotes ds name i)
    (h : accepts ds guard t v = true) :
    accepts ds (name :: guard) t v = true ∨
      accepts ds (name :: guard) (ds.get i).type v = true := by
  induction guard, t, v using accepts_induction ds with
  | null guard v => exact .inl (accepts_null_iff.2 (accepts_null_iff.1 h))
  | boolean guard v => exact .inl (accepts_boolean_iff.2 (accepts_boolean_iff.1 h))
  | number guard v => exact .inl (accepts_number_iff.2 (accepts_number_iff.1 h))
  | string guard v => exact .inl (accepts_string_iff.2 (accepts_string_iff.1 h))
  | literal guard wanted v => exact .inl (accepts_literal_iff.2 (accepts_literal_iff.1 h))
  | named guard other v ih =>
    obtain ⟨hg, j, hj, hv⟩ := accepts_named_iff.1 h
    by_cases hname : other = name
    · -- the name itself is entered: its visit is the second alternative
      subst hname
      rw [hj.unique hi] at hv
      exact .inr hv
    · rcases ih j hj hg hv with hkeep | hinner
      · refine .inl (accepts_named_iff.2 ⟨?_, j, hj, ?_⟩)
        · rw [List.mem_cons, not_or]
          exact ⟨hname, hg⟩
        · exact accepts_of_subset (List.Perm.swap name other guard).subset hkeep
      · exact .inr (accepts_of_subset
          (List.cons_subset_cons name (List.subset_cons_self other guard)) hinner)
  | array guard item v => exact .inl (accepts_array_iff.2 (accepts_array_iff.1 h))
  | record guard values v => exact .inl (accepts_record_iff.2 (accepts_record_iff.1 h))
  | interface guard members v => exact .inl (accepts_interface_iff.2 (accepts_interface_iff.1 h))
  | union guard arms v ih =>
    obtain ⟨arm, harm, hv⟩ := accepts_union_iff.1 h
    exact (ih arm harm hv).imp_left fun hkeep ↦ accepts_union_iff.2 ⟨arm, harm, hkeep⟩
  | intersection guard arms v ih =>
    -- one arm with the second alternative settles the whole intersection
    by_cases hinner : accepts ds (name :: guard) (ds.get i).type v = true
    · exact .inr hinner
    · refine .inl (accepts_intersection_iff.2 fun arm harm ↦ ?_)
      exact (ih arm harm (accepts_intersection_iff.1 h arm harm)).resolve_right hinner

/-- Entering a name costs nothing when the guard is empty. -/
theorem accepts_named_nil_iff {name : String} {i : Fin ds.length} (hi : Denotes ds name i) :
    accepts ds [] (.named name) v = true ↔ accepts ds [] (ds.get i).type v = true := by
  rw [accepts_named_iff]
  constructor
  · rintro ⟨-, j, hj, hv⟩
    rw [hi.unique hj]
    exact accepts_of_subset (List.nil_subset _) hv
  · intro hv
    refine ⟨List.not_mem_nil, i, hi, ?_⟩
    rcases accepts_cons_or hi hv with h | h <;> exact h

/-- **Completeness.** A value with a derivation passes. -/
theorem accepts_of_derivation (h : Accepts ds t v) : accepts ds [] t v = true := by
  induction h with
  | null => exact accepts_null_iff.2 rfl
  | boolean b => exact accepts_boolean_iff.2 ⟨b, rfl⟩
  | number n => exact accepts_number_iff.2 ⟨n, rfl⟩
  | string s => exact accepts_string_iff.2 ⟨s, rfl⟩
  | literal h => exact accepts_literal_iff.2 h
  | named hd _ ih => exact (accepts_named_nil_iff hd).2 ih
  | array _ ih => exact accepts_array_iff.2 ⟨_, rfl, ih⟩
  | record _ ih => exact accepts_record_iff.2 ⟨_, rfl, ih⟩
  | interface _ habsent ih => exact accepts_interface_iff.2 ⟨_, rfl, ih, habsent⟩
  | union hmem _ ih => exact accepts_union_iff.2 ⟨_, hmem, ih⟩
  | intersection _ ih => exact accepts_intersection_iff.2 ih

/-- **The test with an empty guard decides acceptance.** -/
theorem accepts_nil_iff : accepts ds [] t v = true ↔ Accepts ds t v :=
  ⟨derivation_of_accepts, accepts_of_derivation⟩

/-! ### Asking for a declaration by name -/

/-- There is no check for a name that nothing declares. -/
theorem check?_eq_none_iff {name : String} :
    check? ds name v = none ↔ ∀ d ∈ ds, d.name ≠ name := by
  rw [check?, Option.map_eq_none_iff, typeOf?_eq_none_iff]

/-- A check starts with its own name in the guard, which is one visit of that name. -/
theorem check?_eq_some_accepts {name : String} {i : Fin ds.length} (hi : Denotes ds name i) :
    check? ds name v = some (accepts ds [] (.named name) v) := by
  have hvisit : accepts ds [] (.named name) v = accepts ds [name] (ds.get i).type v := by
    rw [Bool.eq_iff_iff, accepts_named_iff]
    constructor
    · rintro ⟨-, j, hj, hv⟩
      rwa [hi.unique hj]
    · exact fun hv ↦ ⟨List.not_mem_nil, i, hi, hv⟩
  rw [check?, typeOf?_eq_some_iff.2 ⟨i, hi, rfl⟩, hvisit]
  rfl

/-- The check for a name is the acceptance of the type that the name denotes. -/
theorem check?_eq_some_iff {name : String} {b : Bool} :
    check? ds name v = some b ↔
      ∃ i, Denotes ds name i ∧ (b = true ↔ Accepts ds (ds.get i).type v) := by
  have hanswer : ∀ i, Denotes ds name i →
      (check? ds name v = some b ↔ (b = true ↔ Accepts ds (ds.get i).type v)) := by
    intro i hi
    rw [check?_eq_some_accepts hi, Option.some_inj, Bool.eq_iff_iff, accepts_named_nil_iff hi,
      accepts_nil_iff]
    exact iff_comm
  constructor
  · intro h
    obtain ⟨t, ht, -⟩ := Option.map_eq_some_iff.1 h
    obtain ⟨i, hi, -⟩ := typeOf?_eq_some_iff.1 ht
    exact ⟨i, hi, (hanswer i hi).1 h⟩
  · rintro ⟨i, hi, hb⟩
    exact (hanswer i hi).2 hb

/-- **The guard is exact.** Whatever the declarations — repeated, dangling or circular names
included — a check has no answer exactly for a name that nothing declares; otherwise it answers
whether the declaration that the name denotes accepts the value by a derivation, in which no guard
occurs. The same holds of the bare test for every type, so no value with a derivation is refused. -/
theorem check?_decides_derivability (ds : List Declaration) (name : String) (v : Json) :
    (check? ds name v = none ↔ ∀ d ∈ ds, d.name ≠ name) ∧
      (check? ds name v = some true ↔ ∃ i, Denotes ds name i ∧ Accepts ds (ds.get i).type v) ∧
      (check? ds name v = some false ↔ ∃ i, Denotes ds name i ∧ ¬Accepts ds (ds.get i).type v) ∧
      ∀ t, accepts ds [] t v = true ↔ Accepts ds t v := by
  refine ⟨check?_eq_none_iff, ?_, ?_, fun t ↦ accepts_nil_iff⟩
  · simpa using check?_eq_some_iff (b := true)
  · simpa using check?_eq_some_iff (b := false)

end SchemaCodec.Declaration
