import SchemaCodec.Proofs.Dependency.Sort

/-!
# Declarations placed before what they name

Sorting places a declaration before another one that it names only to break a cycle
(`Schedule.transGen_of_idxOf_lt`), but the cycle that it breaks need not be one that the two
declarations share. When nothing is ready, the lowest position on *any* cycle is emitted, also if it
names a member of a second cycle from which nothing leads back: `twoCycles` is the smallest case,
and waiting for the second cycle would have been possible there.

What does hold is `names_forward_cases`. The declaration placed too early lies on a cycle that
nothing placed before it belongs to, and what it names either leads back to it, or leads to another
cycle that is listed, and placed, behind it. Where cycles are listed behind the cycles they lead to,
the second alternative never occurs.
-/

namespace SchemaCodec

open Relation

/-- A position that comes before another one it names is on a cycle of positions that come no
earlier, and the other one reaches such a cycle, at a position that is not lower. -/
theorem Schedule.exists_onCycle_of_idxOf_lt {n : ℕ} {r : Fin n → Fin n → Prop}
    {order : List (Fin n)} {i j : Fin n} (h : Schedule r [] order) (hij : r i j)
    (hlt : order.idxOf i < order.idxOf j) :
    OnCycle r (order.idxOf i ≤ order.idxOf ·) i ∧
      ∃ k, i ≤ k ∧ Reaches r (order.idxOf i ≤ order.idxOf ·) j k ∧
        OnCycle r (order.idxOf i ≤ order.idxOf ·) k := by
  obtain ⟨before, hbefore, hnext⟩ := h.exists_next i
  have halive : (order.idxOf i ≤ order.idxOf ·) = (· ∉ before) := by
    funext k
    rw [hbefore, not_lt]
  have hj : j ∉ before := fun hmem ↦ lt_asymm hlt ((hbefore j).1 hmem)
  have hne : j ≠ i := by
    rintro rfl
    exact lt_irrefl _ hlt
  rw [halive]
  rcases hnext with hready | ⟨hnone, hleast⟩
  · exact absurd (hready.1.2 j hij hne) hj
  · obtain ⟨k, hjk, hk⟩ := @exists_onCycle_of_reaches _ r (· ∉ before) j _ hj
      fun _ ↦ exists_awaited_of_stalled hnone
    exact ⟨hleast.1, k, hleast.2 hk, hjk, hk⟩

namespace Declaration

variable {ds : List Declaration} {i j : Fin ds.length}

/-- The declarations that sorting places at `i` or behind it. -/
def PlacedFrom (ds : List Declaration) (i k : Fin ds.length) : Prop :=
  sortedPosition ds i ≤ sortedPosition ds k

/-- **What is placed before something it names.** Such a declaration is on a cycle of at least two
declarations, none of them placed before it. What it names leads back to it, or else leads to a
cycle of at least two declarations, none of them placed before it either, that meets the input
behind it and does not lead back. -/
theorem names_forward_cases (hij : Names ds i j)
    (hlt : sortedPosition ds i < sortedPosition ds j) :
    OnCycle (Names ds) (PlacedFrom ds i) i ∧
      (TransGen (Names ds) j i ∨
        ∃ k, i < k ∧ ¬TransGen (Names ds) k i ∧ Reaches (Names ds) (PlacedFrom ds i) j k ∧
          OnCycle (Names ds) (PlacedFrom ds i) k) := by
  obtain ⟨hcycle, k, hik, hjk, hk⟩ :=
    (schedule_order_graph ds).exists_onCycle_of_idxOf_lt hij hlt
  refine ⟨hcycle, ?_⟩
  have hreach : ReflTransGen (Names ds) j k := ReflTransGen.mono (fun _ _ h ↦ h.2.2) j k hjk
  by_cases hback : TransGen (Names ds) k i
  · exact .inl (TransGen.trans_right hreach hback)
  · rcases hik.eq_or_lt with rfl | hlt'
    · exact absurd hk.transGen hback
    · exact .inr ⟨k, hlt', hback, hjk, hk⟩

/-! ### Two cycles, the first of which names the second -/

/-- `A` and `B` name each other, and so do `C` and `D`; besides, `A` names `C`. -/
def twoCycles : List Declaration :=
  [⟨"A", .union [.named "B", .named "C"]⟩, ⟨"B", .named "A"⟩, ⟨"C", .named "D"⟩,
    ⟨"D", .named "C"⟩]

/-- One declaration names another if a name in its type is found there. -/
theorem names_iff_position? :
    Names ds i j ↔ ∃ name ∈ (ds.get i).type.names, position? name ds = some j := by
  simp only [Names, position?_eq_some_iff]

theorem names_twoCycles : Names twoCycles ⟨0, by decide⟩ ⟨2, by decide⟩ :=
  names_iff_position?.2 (by decide)

/-- At the start nothing is ready, and `A` is the lowest position on a cycle. -/
theorem next_twoCycles : Next (Names twoCycles) [] ⟨0, by decide⟩ := by
  have hwaits : ∀ k, ∃ j, Names twoCycles k j ∧ j ≠ k := by
    simp only [names_iff_position?]
    decide
  have hout : Names twoCycles ⟨0, by decide⟩ ⟨1, by decide⟩ := names_iff_position?.2 (by decide)
  have hback : Names twoCycles ⟨1, by decide⟩ ⟨0, by decide⟩ := names_iff_position?.2 (by decide)
  refine .stalled (fun k hk ↦ ?_) ⟨?_, fun k _ ↦ Nat.zero_le k⟩
  · obtain ⟨j, hkj, hne⟩ := hwaits k
    exact List.not_mem_nil (hk.2 j hkj hne)
  · exact ⟨_, by decide, .single ⟨List.not_mem_nil, List.not_mem_nil, hout⟩,
      .single ⟨List.not_mem_nil, List.not_mem_nil, hback⟩⟩

/-- In the sorted list, the first declaration comes before one that it names. -/
theorem sortedPosition_twoCycles_lt :
    sortedPosition twoCycles ⟨0, by decide⟩ < sortedPosition twoCycles ⟨2, by decide⟩ := by
  show (graph twoCycles).order.idxOf _ < (graph twoCycles).order.idxOf _
  have hschedule := schedule_order_graph twoCycles
  generalize (graph twoCycles).order = order at hschedule
  cases hschedule with
  | done h => exact absurd (h ⟨0, by decide⟩) List.not_mem_nil
  | emit hnext _ =>
    obtain rfl := next_twoCycles.unique hnext
    rw [List.idxOf_cons_self, List.idxOf_cons_ne _ (by decide)]
    exact Nat.succ_pos _

/-- Nothing leads out of the second cycle. -/
theorem not_transGen_twoCycles :
    ¬TransGen (Names twoCycles) ⟨2, by decide⟩ ⟨0, by decide⟩ := by
  have hclosed : ∀ a b : Fin twoCycles.length, 2 ≤ a.val → Names twoCycles a b → 2 ≤ b.val := by
    simp only [names_iff_position?]
    decide
  have hstay : ∀ b, TransGen (Names twoCycles) ⟨2, by decide⟩ b → 2 ≤ b.val := by
    intro b h
    induction h with
    | single h => exact hclosed _ _ (le_refl 2) h
    | tail _ h ih => exact hclosed _ _ ih h
  exact fun h ↦ absurd (hstay _ h) (by decide)

/-- **Sorting does not wait where no cycle keeps it from waiting**: `A` is placed before `C`, which
it names, although `C` does not refer back to `A`. -/
theorem not_forall_names_forward_back :
    ¬∀ ds : List Declaration, (ds.map Declaration.name).Nodup → ∀ i j : Fin ds.length, i ≠ j →
      Names ds i j → sortedPosition ds i < sortedPosition ds j → TransGen (Names ds) j i :=
  fun hall ↦ not_transGen_twoCycles (hall twoCycles (by decide) _ _ (by decide) names_twoCycles
    sortedPosition_twoCycles_lt)

/-- There the second alternative holds: `C` leads to a cycle behind `A`. -/
theorem twoCycles_names_forward :
    Names twoCycles ⟨0, by decide⟩ ⟨2, by decide⟩ ∧
    sortedPosition twoCycles ⟨0, by decide⟩ < sortedPosition twoCycles ⟨2, by decide⟩ ∧
    ∃ k, (⟨0, by decide⟩ : Fin twoCycles.length) < k ∧
      ¬TransGen (Names twoCycles) k ⟨0, by decide⟩ ∧
        Reaches (Names twoCycles) (PlacedFrom twoCycles ⟨0, by decide⟩) ⟨2, by decide⟩ k ∧
          OnCycle (Names twoCycles) (PlacedFrom twoCycles ⟨0, by decide⟩) k :=
  ⟨names_twoCycles, sortedPosition_twoCycles_lt,
    (names_forward_cases names_twoCycles sortedPosition_twoCycles_lt).2.resolve_left
      not_transGen_twoCycles⟩

end Declaration

end SchemaCodec
