import Mathlib.Data.List.FinRange
import Mathlib.Data.List.Sort
import Mathlib.Order.Hom.Basic

/-!
# Lists

Facts about lists that belong to no part of the library: what remains when repetitions are removed,
which member is the first with a property, and which members a filter keeps.
-/

namespace SchemaCodec

/-! ### Lists without repetitions -/

/-- Induction along the removal of repetitions: behind the first member its copies are gone, and
what is left there is shorter, but no part of the list. -/
theorem eraseDups_induction {α : Type} [BEq α] {motive : List α → Prop} (nil : motive [])
    (cons : ∀ a l, motive (l.filter fun b ↦ !b == a) → motive (a :: l)) (l : List α) :
    motive l := by
  induction hlen : l.length using Nat.strong_induction_on generalizing l with
  | _ n ih =>
    cases l with
    | nil => exact nil
    | cons a l =>
      refine cons a l (ih _ ?_ _ rfl)
      rw [← hlen]
      exact Nat.lt_succ_of_le (List.length_filter_le _ _)

/-- Removing repetitions leaves none. -/
theorem nodup_eraseDups {α : Type} [BEq α] [LawfulBEq α] (l : List α) : l.eraseDups.Nodup := by
  induction l using eraseDups_induction with
  | nil => exact List.nodup_nil
  | cons a l ih =>
    rw [List.eraseDups_cons]
    refine List.nodup_cons.2 ⟨fun hmem ↦ ?_, ih⟩
    rw [List.mem_eraseDups, List.mem_filter] at hmem
    simp at hmem

section EraseDups

variable {α β : Type} [DecidableEq α] [DecidableEq β]

/-- A filter and the removal of repetitions can trade places. -/
theorem eraseDups_filter (p : α → Bool) (l : List α) :
    (l.filter p).eraseDups = l.eraseDups.filter p := by
  induction l using eraseDups_induction with
  | nil => rfl
  | cons a l ih =>
    rw [List.eraseDups_cons]
    by_cases ha : p a = true
    · rw [List.filter_cons_of_pos ha, List.filter_cons_of_pos ha, List.eraseDups_cons, ← ih,
        List.filter_comm]
    · -- copies of `a` are left out either way
      have hcopies : (l.filter fun b ↦ !b == a).filter p = l.filter p := by
        rw [List.filter_filter]
        refine List.filter_congr fun b _ ↦ ?_
        by_cases hb : b = a
        · simp [hb, ha]
        · simp [hb]
      rw [List.filter_cons_of_neg ha, List.filter_cons_of_neg ha, ← ih, hcopies]

/-- An injective map does not change what is a repetition. -/
theorem eraseDups_map {f : α → β} (hf : Function.Injective f) (l : List α) :
    (l.map f).eraseDups = l.eraseDups.map f := by
  induction l using eraseDups_induction with
  | nil => rfl
  | cons a l ih =>
    have hcopies : (fun b ↦ !b == f a) ∘ f = fun b ↦ !b == a := by
      funext b
      simp [hf.eq_iff, beq_eq_decide]
    rw [List.map_cons, List.eraseDups_cons, List.eraseDups_cons, List.map_cons, List.filter_map,
      hcopies, ih]

/-- What is found first is there without repetitions too. -/
theorem find?_eraseDups (p : α → Bool) (l : List α) :
    l.eraseDups.find? p = l.find? p := by
  induction l using eraseDups_induction with
  | nil => rfl
  | cons b l ih =>
    rw [List.eraseDups_cons]
    by_cases hb : p b = true
    · rw [List.find?_cons_of_pos hb, List.find?_cons_of_pos hb]
    · rw [List.find?_cons_of_neg hb, List.find?_cons_of_neg hb, ih, List.find?_filter]
      -- only copies of `b` are left out, and none of them has the property
      congr 1
      funext c
      rw [Bool.eq_iff_iff]
      constructor
      · intro hc
        exact (of_decide_eq_true hc).2
      · intro hc
        have hne : c ≠ b := by
          rintro rfl
          exact hb hc
        simp [hc, hne]

/-- Repetitions in what is removed do not matter. -/
theorem removeAll_eraseDups (l m : List α) :
    l.removeAll m.eraseDups = l.removeAll m := by
  refine List.filter_congr fun x _ ↦ ?_
  simp [List.mem_eraseDups]

end EraseDups

/-! ### The first with a property -/

section IsFirst

variable {α β : Type} {p : α → Prop} {l : List α} {a : α}

/-- `a` is the first in `l` to have the property `p`. -/
def IsFirst (p : α → Prop) (l : List α) (a : α) : Prop :=
  ∃ before after, l = before ++ a :: after ∧ p a ∧ ∀ b ∈ before, ¬p b

theorem IsFirst.mem (h : IsFirst p l a) : a ∈ l := by
  obtain ⟨before, after, rfl, -⟩ := h
  exact List.mem_append_right _ List.mem_cons_self

theorem IsFirst.holds (h : IsFirst p l a) : p a := by
  obtain ⟨before, after, -, ha, -⟩ := h
  exact ha

/-- The first element with a property is the one that a search finds. -/
theorem isFirst_iff_find?_eq_some [DecidablePred p] :
    IsFirst p l a ↔ l.find? (fun b ↦ decide (p b)) = some a := by
  rw [List.find?_eq_some_iff_append]
  constructor
  · rintro ⟨before, after, hl, ha, hbefore⟩
    exact ⟨by simpa using ha, before, after, hl, by simpa using hbefore⟩
  · rintro ⟨ha, before, after, hl, hbefore⟩
    exact ⟨before, after, hl, by simpa using ha, by simpa using hbefore⟩

/-- There is at most one first. -/
theorem IsFirst.unique {b : α} (ha : IsFirst p l a) (hb : IsFirst p l b) : a = b := by
  classical
  rw [isFirst_iff_find?_eq_some] at ha hb
  exact Option.some_inj.1 (ha.symm.trans hb)

/-- The first of a list, carried along a map that respects the property. -/
theorem IsFirst.map {q : β → Prop} {f : α → β} (hf : ∀ b ∈ l, p b ↔ q (f b))
    (h : IsFirst p l a) : IsFirst q (l.map f) (f a) := by
  have hmem := h.mem
  obtain ⟨before, after, rfl, ha, hbefore⟩ := h
  refine ⟨before.map f, after.map f, by simp, (hf a hmem).1 ha, ?_⟩
  refine List.forall_mem_map.2 fun b hb hq ↦ hbefore b hb ?_
  exact (hf b (List.mem_append_left _ hb)).2 hq

/-- **Repetitions do not matter to what comes first.** -/
theorem isFirst_eraseDups_iff [DecidableEq α] : IsFirst p l.eraseDups a ↔ IsFirst p l a := by
  classical
  rw [isFirst_iff_find?_eq_some, isFirst_iff_find?_eq_some, find?_eraseDups]

end IsFirst

/-! ### Filters -/

/-- A member that is left out might as well not be there. -/
theorem filter_append_cons {α : Type} {p : α → Bool} {a : α} {l m : List α} (h : p a = false) :
    (l ++ a :: m).filter p = (l ++ m).filter p := by
  rw [List.filter_append, List.filter_cons_of_neg (by simp [h]), ← List.filter_append]

/-- An embedding lists its range in order. -/
theorem map_finRange_eq_filter {m n : ℕ} (e : Fin m ↪o Fin n) :
    (List.finRange m).map e = (List.finRange n).filter fun k ↦ decide (∃ i, e i = k) := by
  have hleft : ((List.finRange m).map e).Pairwise (· < ·) :=
    List.pairwise_map.2 ((List.pairwise_lt_finRange m).imp fun hlt ↦ e.lt_iff_lt.2 hlt)
  have hright : ((List.finRange n).filter fun k ↦ decide (∃ i, e i = k)).Pairwise (· < ·) :=
    (List.pairwise_lt_finRange n).filter _
  refine List.Perm.eq_of_pairwise (fun a b _ _ hab hba ↦ absurd hab (lt_asymm hba)) hleft hright ?_
  rw [List.perm_ext_iff_of_nodup (hleft.imp ne_of_lt) (hright.imp ne_of_lt)]
  simp

end SchemaCodec
