import Mathlib.Data.List.NodupEquivFin
import SchemaCodec.Proofs.Dependency.Relabelling

/-!
# Leaving out declarations that nothing else names

Suppose that some of the declarations name only each other. Whatever else there is, and wherever it
stands, these are sorted among themselves as if they were alone: `sort_filter`.

The two schedules are run against each other (`IsPart.exists_schedule`). The larger one may emit
something else first, also while the part is stalled, or take its own cycle before one of the part;
neither changes what is ready in the part or on a cycle there. When it does emit a member of the
part, that member is the lowest of its kind, so it is the lowest in the part as well
(`IsPart.next`).
-/

namespace SchemaCodec

/-- The positions of `r` are some of the positions of `s`, in the same order and with the same
steps, and no step leads out of them. -/
structure IsPart {m n : ℕ} (e : Fin m ↪o Fin n) (r : Fin m → Fin m → Prop)
    (s : Fin n → Fin n → Prop) : Prop where
  step_iff : ∀ i j, r i j ↔ s (e i) (e j)
  closed : ∀ i k, s (e i) k → k ∈ Set.range e

namespace IsPart

variable {m n : ℕ} {e : Fin m ↪o Fin n} {r : Fin m → Fin m → Prop} {s : Fin n → Fin n → Prop}
  {emitted : List (Fin m)} {emitted' order' : List (Fin n)} {i : Fin m}

theorem isCopy (h : IsPart e r s) : IsCopy e r s :=
  ⟨e.injective, h.step_iff, h.closed⟩

theorem next (h : IsPart e r s) (hemitted : ∀ i, i ∈ emitted ↔ e i ∈ emitted')
    (hnext : Next s emitted' (e i)) : Next r emitted i :=
  h.isCopy.next hemitted (fun _ _ ↦ e.le_iff_le.1) hnext

/-- **A part is scheduled as if it were alone.** -/
theorem exists_schedule (h : IsPart e r s) (hschedule : Schedule s emitted' order')
    (hemitted : ∀ i, i ∈ emitted ↔ e i ∈ emitted') :
    ∃ order, Schedule r emitted order ∧
      order.map e = order'.filter fun k ↦ decide (∃ i, e i = k) := by
  induction hschedule generalizing emitted with
  | done hall => exact ⟨[], .done fun i ↦ (hemitted i).2 (hall (e i)), rfl⟩
  | @emit emitted' order' k hnext _ ih =>
    by_cases hk : ∃ i, e i = k
    · obtain ⟨i, rfl⟩ := hk
      have hemitted' : ∀ j, j ∈ i :: emitted ↔ e j ∈ e i :: emitted' := by
        intro j
        rw [List.mem_cons, List.mem_cons, hemitted, e.injective.eq_iff]
      obtain ⟨order, horder, hmap⟩ := ih hemitted'
      refine ⟨i :: order, .emit (h.next hemitted hnext) horder, ?_⟩
      rw [List.filter_cons_of_pos (by simp), List.map_cons, hmap]
    · -- something else is emitted, and the part takes no notice
      have hemitted' : ∀ j, j ∈ emitted ↔ e j ∈ k :: emitted' := by
        intro j
        rw [List.mem_cons, hemitted, or_iff_right fun heq ↦ hk ⟨j, heq⟩]
      obtain ⟨order, horder, hmap⟩ := ih hemitted'
      refine ⟨order, horder, ?_⟩
      rw [List.filter_cons_of_neg (by simpa using hk), hmap]

end IsPart

namespace Declaration

variable {ds : List Declaration} {keep : Declaration → Bool}

/-- Declarations that are kept name nothing that is left out. -/
def KeptClosed (keep : Declaration → Bool) (ds : List Declaration) : Prop :=
  ∀ d ∈ ds, keep d = true → ∀ e ∈ ds, e.name ∈ d.type.names → keep e = true

/-- Where the declarations that are kept stand among all. -/
theorem exists_isPart (hnd : (ds.map Declaration.name).Nodup) (hclosed : KeptClosed keep ds) :
    ∃ e : Fin (ds.filter keep).length ↪o Fin ds.length,
      (∀ i, (ds.filter keep).get i = ds.get (e i)) ∧
        (∀ k, (∃ i, e i = k) ↔ keep (ds.get k) = true) ∧
          IsPart e (Names (ds.filter keep)) (Names ds) := by
  obtain ⟨e, he⟩ := List.sublist_iff_exists_fin_orderEmbedding_get_eq.1
    (List.filter_sublist : (ds.filter keep).Sublist ds)
  have hnd' : ((ds.filter keep).map Declaration.name).Nodup :=
    hnd.sublist (List.filter_sublist.map _)
  have hrange : ∀ k, (∃ i, e i = k) ↔ keep (ds.get k) = true := by
    intro k
    constructor
    · rintro ⟨i, rfl⟩
      rw [← he]
      exact (List.mem_filter.1 ((ds.filter keep).get_mem i)).2
    · intro hk
      obtain ⟨i, hi⟩ := List.get_of_mem (List.mem_filter.2 ⟨ds.get_mem k, hk⟩)
      exact ⟨i, List.nodup_iff_injective_get.1 hnd.of_map ((he i).symm.trans hi)⟩
  refine ⟨e, he, hrange, fun i j ↦ ?_, fun i k hik ↦ ?_⟩
  · simp only [Names, denotes_iff_of_nodup hnd, denotes_iff_of_nodup hnd', he]
  · obtain ⟨name, hname, hdenotes⟩ := hik
    refine (hrange k).2 (hclosed _ (ds.get_mem (e i)) ((hrange _).1 ⟨i, rfl⟩) _ (ds.get_mem k) ?_)
    rwa [hdenotes.name_eq]

/-- **Sorting sees no difference** between a part of the declarations that names nothing outside and
the same declarations alone. -/
theorem sort_filter (hnd : (ds.map Declaration.name).Nodup) (hclosed : KeptClosed keep ds) :
    sort (ds.filter keep) = (sort ds).filter keep := by
  obtain ⟨e, he, hrange, hpart⟩ := exists_isPart hnd hclosed
  have hstart : ∀ i, i ∈ ([] : List (Fin (ds.filter keep).length)) ↔
      e i ∈ ([] : List (Fin ds.length)) := by
    simp
  obtain ⟨order, horder, hmap⟩ := hpart.exists_schedule (schedule_order_graph ds) hstart
  have hsame : order = (graph (ds.filter keep)).order := horder.unique (schedule_order_graph _)
  have hget : (ds.filter keep).get = ds.get ∘ e := funext he
  calc sort (ds.filter keep) = order.map (ds.filter keep).get := by rw [hsame, sort]
    _ = (order.map e).map ds.get := by rw [hget, List.map_map]
    _ = ((graph ds).order.filter (keep ∘ ds.get)).map ds.get := by
      rw [hmap]
      congr 1
      refine List.filter_congr fun k _ ↦ ?_
      rw [Bool.eq_iff_iff, decide_eq_true_iff, hrange]
      rfl
    _ = (sort ds).filter keep := by rw [sort, List.filter_map]

end Declaration

end SchemaCodec
