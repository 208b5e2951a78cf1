import Mathlib.Data.List.FinRange
import Mathlib.Data.List.Perm.Basic
import Mathlib.Order.Bounds.Basic
import Mathlib.Order.Fin.Basic
import SchemaCodec.Proofs.Dependency.Reachability

/-!
# Schedules

The rule by which positions are to be emitted, stated without counters, queue or search. Given a
relation `r` ("names"), the next position is the lowest one that waits for nothing; if there is
none, it is the lowest one on a cycle of at least two positions that are still to come (`Next`). A
`Schedule` goes on like that until everything is emitted.

The rule leaves no choice: `Next` determines the position and `Schedule` the whole order
(`Schedule.unique`), which lists every position once (`Schedule.perm_finRange`). A position comes
before another one that it names only if it lies on a cycle (`Schedule.transGen_of_idxOf_lt`).

As in the process that realises it, the emitted positions are kept with the last one first.
-/

namespace SchemaCodec

open Relation

variable {n : ℕ} {r : Fin n → Fin n → Prop} {emitted order : List (Fin n)} {i j : Fin n}

/-- `i` is still to come, and everything else that it names is emitted. -/
def Ready (r : Fin n → Fin n → Prop) (emitted : List (Fin n)) (i : Fin n) : Prop :=
  i ∉ emitted ∧ ∀ j, r i j → j ≠ i → j ∈ emitted

/-- The position to be emitted next. -/
inductive Next (r : Fin n → Fin n → Prop) (emitted : List (Fin n)) (i : Fin n) : Prop
  | ready (h : IsLeast {k | Ready r emitted k} i)
  | stalled (hnone : ∀ k, ¬Ready r emitted k) (h : IsLeast {k | OnCycle r (· ∉ emitted) k} i)

/-- `order` is what is emitted, one position after the other, once `emitted` is. -/
inductive Schedule (r : Fin n → Fin n → Prop) : (emitted order : List (Fin n)) → Prop
  | done {emitted : List (Fin n)} (h : ∀ i, i ∈ emitted) : Schedule r emitted []
  | emit {emitted order : List (Fin n)} {i : Fin n} (h : Next r emitted i)
      (hrest : Schedule r (i :: emitted) order) : Schedule r emitted (i :: order)

theorem Next.not_mem (h : Next r emitted i) : i ∉ emitted := by
  rcases h with h | ⟨-, h⟩
  · exact h.1.1
  · have hcycle : OnCycle r (· ∉ emitted) i := h.1
    exact hcycle.living

/-- In a stall, whatever is still to come waits for something else that is. -/
theorem exists_awaited_of_stalled (hnone : ∀ k, ¬Ready r emitted k) (hi : i ∉ emitted) :
    ∃ j, j ≠ i ∧ j ∉ emitted ∧ r i j := by
  by_contra hno
  refine hnone i ⟨hi, fun j hij hne ↦ ?_⟩
  by_contra hj
  exact hno ⟨j, hne, hj, hij⟩

/-- A position that is emitted before something it names is on a cycle. -/
theorem Next.onCycle (h : Next r emitted i) (hij : r i j) (hne : j ≠ i) (hj : j ∉ emitted) :
    OnCycle r (· ∉ emitted) i := by
  rcases h with h | ⟨-, h⟩
  · exact absurd (h.1.2 j hij hne) hj
  · exact h.1

/-- At most one node is next. -/
theorem Next.unique (hi : Next r emitted i) (hj : Next r emitted j) : i = j := by
  rcases hi with hi | ⟨hnone, hi⟩ <;> rcases hj with hj | ⟨hnone', hj⟩
  · exact hi.unique hj
  · exact absurd hi.1 (hnone' i)
  · exact absurd hj.1 (hnone j)
  · exact hi.unique hj

/-! ### The order that a schedule gives -/

namespace Schedule

/-- **A schedule leaves no choice.** -/
theorem unique {order' : List (Fin n)} (h : Schedule r emitted order)
    (h' : Schedule r emitted order') : order = order' := by
  induction h generalizing order' with
  | done hall =>
    cases h' with
    | done _ => rfl
    | emit hnext _ => exact absurd (hall _) hnext.not_mem
  | emit hnext _ ih =>
    cases h' with
    | done hall => exact absurd (hall _) hnext.not_mem
    | emit hnext' hrest' =>
      obtain rfl := hnext.unique hnext'
      rw [ih hrest']

/-- A schedule has exactly what was not emitted before. -/
theorem mem_iff (h : Schedule r emitted order) : i ∈ order ↔ i ∉ emitted := by
  induction h with
  | done hall => simp [hall i]
  | @emit emitted order k hnext _ ih =>
    rw [List.mem_cons, ih, List.mem_cons, not_or]
    constructor
    · rintro (rfl | ⟨-, hi⟩)
      · exact hnext.not_mem
      · exact hi
    · intro hi
      by_cases hik : i = k
      · exact .inl hik
      · exact .inr ⟨hik, hi⟩

/-- A schedule has nothing twice. -/
theorem nodup (h : Schedule r emitted order) : order.Nodup := by
  induction h with
  | done _ => exact List.nodup_nil
  | emit _ hrest ih =>
    refine List.nodup_cons.2 ⟨fun hmem ↦ ?_, ih⟩
    exact hrest.mem_iff.1 hmem List.mem_cons_self

/-- **A full schedule lists every position once.** -/
theorem perm_finRange (h : Schedule r [] order) : order.Perm (List.finRange n) := by
  rw [List.perm_ext_iff_of_nodup h.nodup (List.nodup_finRange n)]
  intro i
  simp [h.mem_iff]

/-- Each position of a schedule was the next one when its turn came. -/
theorem next_of_append {before after : List (Fin n)}
    (h : Schedule r emitted (before ++ i :: after)) : Next r (before.reverse ++ emitted) i := by
  induction before generalizing emitted with
  | nil =>
    cases h with
    | emit hnext _ => exact hnext
  | cons k before ih =>
    cases h with
    | emit _ hrest =>
      rw [List.reverse_cons, List.append_assoc]
      exact ih hrest

/-- Each position of a full schedule was the next one when exactly those before it were emitted. -/
theorem exists_next (h : Schedule r [] order) (i : Fin n) :
    ∃ before, (∀ k, k ∈ before ↔ order.idxOf k < order.idxOf i) ∧ Next r before i := by
  obtain ⟨before, after, hsplit, hbefore⟩ :=
    List.eq_append_cons_of_mem (h.mem_iff.2 (List.not_mem_nil (a := i)))
  have hindex : order.idxOf i = before.length := by
    rw [hsplit, List.idxOf_append_of_notMem hbefore, List.idxOf_cons_self, Nat.add_zero]
  refine ⟨before.reverse, fun k ↦ ?_, ?_⟩
  · rw [List.mem_reverse, hindex]
    constructor
    · intro hk
      rw [hsplit, List.idxOf_append_of_mem hk]
      exact List.idxOf_lt_length_of_mem hk
    · intro hlt
      by_contra hk
      rw [hsplit, List.idxOf_append_of_notMem hk] at hlt
      omega
  · have hnext := next_of_append (hsplit ▸ h)
    rwa [List.append_nil] at hnext

/-- **Only a cycle is emitted against the relation.** A position that comes before another one it
names reaches itself. -/
theorem transGen_of_idxOf_lt (h : Schedule r [] order) (hij : r i j)
    (hlt : order.idxOf i < order.idxOf j) : TransGen r i i := by
  obtain ⟨before, hbefore, hnext⟩ := h.exists_next i
  have hj : j ∉ before := fun hmem ↦ lt_asymm hlt ((hbefore j).1 hmem)
  have hne : j ≠ i := by
    rintro rfl
    exact lt_irrefl _ hlt
  exact (hnext.onCycle hij hne hj).transGen

/-- If all that is named comes earlier, the positions are emitted as they stand. -/
theorem drop_finRange (hr : ∀ i j, r i j → j ≠ i → j < i) {m : ℕ} (hm : m ≤ n)
    (hemitted : ∀ k, k ∈ emitted ↔ k.val < m) : Schedule r emitted ((List.finRange n).drop m) := by
  induction hrest : n - m generalizing m emitted with
  | zero =>
    have hmn : m = n := by omega
    subst hmn
    rw [List.drop_eq_nil_of_le (by simp)]
    exact .done fun i ↦ (hemitted i).2 i.isLt
  | succ rest ih =>
    have hlt : m < n := by omega
    have hready : Ready r emitted ⟨m, hlt⟩ :=
      ⟨mt (hemitted _).1 (lt_irrefl m), fun j hj hne ↦ (hemitted j).2 (hr _ j hj hne)⟩
    have hleast : IsLeast {k | Ready r emitted k} ⟨m, hlt⟩ :=
      ⟨hready, fun k hk ↦ not_lt.1 (mt (hemitted k).2 hk.1)⟩
    rw [List.drop_eq_getElem_cons (by simpa using hlt), List.getElem_finRange]
    refine .emit (.ready hleast) (ih (by omega) (fun k ↦ ?_) (by omega))
    rw [List.mem_cons, hemitted, Fin.ext_iff]
    simp only [Fin.val_cast]
    omega

end Schedule

/-! ### Relations that agree between different positions -/

section Congr

variable {r' : Fin n → Fin n → Prop}

/-- Loops at a node do not count for its readiness. -/
theorem ready_congr (hr : ∀ i j, j ≠ i → (r i j ↔ r' i j)) :
    Ready r emitted i ↔ Ready r' emitted i := by
  refine and_congr_right fun _ ↦ forall_congr' fun j ↦ ?_
  constructor
  · exact fun h hij hne ↦ h ((hr i j hne).2 hij) hne
  · exact fun h hij hne ↦ h ((hr i j hne).1 hij) hne

/-- Loops at a node do not count for what is next. -/
theorem next_congr (hr : ∀ i j, j ≠ i → (r i j ↔ r' i j)) (h : Next r emitted i) :
    Next r' emitted i := by
  have hready : {k | Ready r emitted k} = {k | Ready r' emitted k} :=
    Set.ext fun _ ↦ ready_congr hr
  have hcycle : {k | OnCycle r (· ∉ emitted) k} = {k | OnCycle r' (· ∉ emitted) k} :=
    Set.ext fun _ ↦ onCycle_congr hr
  rcases h with h | ⟨hnone, h⟩
  · exact .ready (hready ▸ h)
  · exact .stalled (fun k hk ↦ hnone k ((ready_congr hr).2 hk)) (hcycle ▸ h)

/-- What a position says of itself has no influence on the schedule. -/
theorem Schedule.congr (hr : ∀ i j, j ≠ i → (r i j ↔ r' i j)) (h : Schedule r emitted order) :
    Schedule r' emitted order := by
  induction h with
  | done hall => exact .done hall
  | emit hnext _ ih => exact .emit (next_congr hr hnext) ih

end Congr

end SchemaCodec
