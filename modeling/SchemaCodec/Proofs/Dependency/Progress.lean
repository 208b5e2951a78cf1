import Mathlib.Data.List.Sort
import Mathlib.Data.Fintype.Card
import SchemaCodec.Dependency.Order
import SchemaCodec.Proofs.Dependency.Cycles
import SchemaCodec.Proofs.Dependency.Schedule

/-!
# Emission follows the schedule

The process counts down how many dependencies of each position are outstanding and keeps a queue of
what is ready. `Consistent` says what that means in terms of the emitted positions alone:

* a counter is the number of dependencies not yet emitted, also for positions that a cycle made come
  early and whose counters go on falling afterwards;
* the queue holds, in order, exactly the positions that are ready.

`consistent_emit` shows that emitting a position keeps this, whatever made the process choose it.
When the queue is empty, the marks of `Graph.cycleMembers` are on a cycle of positions still to
come, and the first of them is taken (`exists_isLeast_cycleMember`). `exists_next_step` then reads
off a single step: as long as something is left, a step emits the position that the rule asks for. A
run of `n` steps is therefore the schedule (`schedule_order`).
-/

namespace SchemaCodec

/-- No position depends on itself, and none is listed twice. -/
structure Graph.Simple {n : ℕ} (g : Graph n) : Prop where
  nodup : ∀ i, (g.dependencies i).Nodup
  irrefl : ∀ i, i ∉ g.dependencies i

namespace Progress

variable {n : ℕ} {g : Graph n} {p : Progress n} {i k : Fin n}

/-! ### The queue -/

@[simp] theorem mem_enqueue {l : List (Fin n)} : k ∈ enqueue i l ↔ k = i ∨ k ∈ l := by
  induction l with
  | nil => simp [enqueue]
  | cons j rest ih =>
    rw [enqueue]
    split
    · rw [List.mem_cons]
    · rw [List.mem_cons, ih, List.mem_cons]
      tauto

/-- A position that is not in the queue finds its place there. -/
theorem pairwise_enqueue {l : List (Fin n)} (hi : i ∉ l) (h : l.Pairwise (· < ·)) :
    (enqueue i l).Pairwise (· < ·) := by
  induction l with
  | nil => simp [enqueue]
  | cons j rest ih =>
    obtain ⟨hj, hrest⟩ := List.pairwise_cons.1 h
    rw [List.mem_cons, not_or] at hi
    rw [enqueue]
    split
    · next hij =>
      refine List.pairwise_cons.2 ⟨fun k hk ↦ ?_, h⟩
      rcases List.mem_cons.1 hk with rfl | hk
      · exact hij
      · exact hij.trans (hj k hk)
    · next hij =>
      refine List.pairwise_cons.2 ⟨fun k hk ↦ ?_, ih hi.2 hrest⟩
      rcases mem_enqueue.1 hk with rfl | hk
      · exact lt_of_le_of_ne (not_lt.1 hij) (Ne.symm hi.1)
      · exact hj k hk

/-! ### Releasing a list of positions -/

section Release

variable {js : List (Fin n)}

@[simp] theorem emitted_foldl_release : (js.foldl release p).emitted = p.emitted := by
  induction js generalizing p with
  | nil => rfl
  | cons j js ih => exact ih

theorem pending_release (j : Fin n) :
    (release p j).pending.get k = if j = k then p.pending.get j - 1 else p.pending.get k :=
  Graph.get_set _ _ _ _

/-- A released node becomes ready if it waits for nothing more. -/
theorem mem_ready_release (j : Fin n) :
    k ∈ (release p j).ready ↔
      k ∈ p.ready ∨ (k = j ∧ p.pending.get j - 1 = 0 ∧ p.done.get j = false) := by
  show k ∈ (if p.pending.get j - 1 = 0 ∧ p.done.get j = false then enqueue j p.ready
    else p.ready) ↔ _
  split
  · next h => simp only [mem_enqueue, h, and_self, and_true, or_comm]
  · next h => simp only [h, and_false, or_false]

/-- Distinct positions are released independently: each counter falls by one. -/
theorem pending_foldl_release (hnd : js.Nodup) :
    (js.foldl release p).pending.get k =
      if k ∈ js then p.pending.get k - 1 else p.pending.get k := by
  induction js generalizing p with
  | nil => rfl
  | cons j js ih =>
    obtain ⟨hj, hnd⟩ := List.nodup_cons.1 hnd
    rw [List.foldl_cons, ih hnd, pending_release]
    by_cases hjk : j = k
    · subst hjk
      simp [hj]
    · simp [hjk, Ne.symm hjk]

/-- After releasing several nodes, those among them that wait for nothing more are ready too. -/
theorem mem_ready_foldl_release (hnd : js.Nodup) :
    k ∈ (js.foldl release p).ready ↔
      k ∈ p.ready ∨ (k ∈ js ∧ p.pending.get k - 1 = 0 ∧ p.done.get k = false) := by
  induction js generalizing p with
  | nil => simp
  | cons j js ih =>
    obtain ⟨hj, hnd⟩ := List.nodup_cons.1 hnd
    rw [List.foldl_cons, ih hnd, mem_ready_release, pending_release]
    by_cases hjk : j = k
    · subst hjk
      simp [hj]
    · simp [hjk, Ne.symm hjk, release]

/-- Releasing positions that are not queued yet keeps the queue in order. -/
theorem pairwise_ready_foldl_release (hnd : js.Nodup) (hfresh : ∀ j ∈ js, j ∉ p.ready)
    (h : p.ready.Pairwise (· < ·)) : (js.foldl release p).ready.Pairwise (· < ·) := by
  induction js generalizing p with
  | nil => exact h
  | cons j js ih =>
    obtain ⟨hj, hnd⟩ := List.nodup_cons.1 hnd
    obtain ⟨hjready, hfresh⟩ := List.forall_mem_cons.1 hfresh
    refine ih hnd (fun k hk hmem ↦ ?_) ?_
    · rcases (mem_ready_release j).1 hmem with hready | ⟨rfl, -⟩
      · exact hfresh k hk hready
      · exact hj hk
    · show (if p.pending.get j - 1 = 0 ∧ p.done.get j = false then enqueue j p.ready
        else p.ready).Pairwise _
      split
      · exact pairwise_enqueue hjready h
      · exact h

end Release

/-! ### The invariant -/

/-- How many dependencies of `i` are not emitted. -/
def outstanding (g : Graph n) (emitted : List (Fin n)) (i : Fin n) : ℕ :=
  ((g.dependencies i).filter fun j ↦ decide (j ∉ emitted)).length

/-- The state of the process means what it says of the emitted positions. -/
structure Consistent (g : Graph n) (p : Progress n) : Prop where
  nodup_emitted : p.emitted.Nodup
  done_iff : ∀ i, p.done.get i = true ↔ i ∈ p.emitted
  pending_eq : ∀ i, p.pending.get i = outstanding g p.emitted i
  mem_ready_iff : ∀ i, i ∈ p.ready ↔ i ∉ p.emitted ∧ outstanding g p.emitted i = 0
  pairwise_ready : p.ready.Pairwise (· < ·)

/-- Nothing is outstanding when every dependency was emitted. -/
theorem outstanding_eq_zero_iff {emitted : List (Fin n)} :
    outstanding g emitted i = 0 ↔ ∀ j ∈ g.dependencies i, j ∈ emitted := by
  simp [outstanding]

/-- Emitting a dependency that was outstanding takes one off the count. -/
theorem outstanding_cons (hg : g.Simple) {emitted : List (Fin n)} (hi : i ∉ emitted) :
    outstanding g (i :: emitted) k =
      if i ∈ g.dependencies k then outstanding g emitted k - 1 else outstanding g emitted k := by
  have herase : (g.dependencies k).filter (fun j ↦ decide (j ∉ i :: emitted)) =
      ((g.dependencies k).filter fun j ↦ decide (j ∉ emitted)).erase i := by
    rw [((hg.nodup k).filter _).erase_eq_filter, List.filter_filter]
    refine List.filter_congr fun j _ ↦ ?_
    by_cases hji : j = i <;> simp [hji]
  have hmem : i ∈ (g.dependencies k).filter (fun j ↦ decide (j ∉ emitted)) ↔
      i ∈ g.dependencies k := by
    simp [hi]
  rw [outstanding, herase, List.length_erase]
  simp only [hmem, outstanding]

/-- The first state is consistent: nothing was emitted, so every dependency is outstanding. -/
theorem consistent_start : Consistent g (start g) where
  nodup_emitted := List.nodup_nil
  done_iff i := by
    have hget : (Vector.replicate n false).get i = false := Vector.getElem_replicate i.isLt
    simp [start, hget]
  pending_eq i := by
    show (Vector.ofFn _)[i.val] = _
    rw [Vector.getElem_ofFn]
    simp [start, outstanding]
  mem_ready_iff i := by
    rw [outstanding_eq_zero_iff]
    simp [start, List.eq_nil_iff_forall_not_mem]
  pairwise_ready := (List.sortedLT_finRange n).pairwise.filter _

/-! ### Emission -/

theorem mem_dependents_iff : k ∈ g.dependents i ↔ i ∈ g.dependencies k := by
  simp [Graph.dependents]

theorem nodup_dependents (g : Graph n) (i : Fin n) : (g.dependents i).Nodup :=
  (List.nodup_finRange n).filter _

@[simp] theorem emitted_emit : (emit g p i).emitted = i :: p.emitted := by
  rw [emit, emitted_foldl_release, mark]

/-- Whoever waits for a position that is still to come has something outstanding. -/
theorem outstanding_ne_zero {emitted : List (Fin n)} (hi : i ∉ emitted)
    (hk : i ∈ g.dependencies k) : outstanding g emitted k ≠ 0 :=
  fun hzero ↦ hi (outstanding_eq_zero_iff.1 hzero i hk)

/-- The marks tell what was emitted, the node being emitted included. -/
theorem Consistent.done_mark_iff (h : Consistent g p) :
    (p.mark i).done.get k = true ↔ k = i ∨ k ∈ p.emitted := by
  rw [mark, Graph.get_set]
  by_cases hik : i = k
  · simp [hik]
  · rw [if_neg hik, h.done_iff]
    simp [Ne.symm hik]

/-- The process with a position taken out of its queue. -/
def dequeue (p : Progress n) (i : Fin n) : Progress n :=
  { p with ready := p.ready.erase i }

/-- The queue after emission: what was there before, and what waited for this position alone. -/
theorem Consistent.mem_ready_emit_iff (h : Consistent g p) (hg : g.Simple) (hi : i ∉ p.emitted) :
    k ∈ (emit g (p.dequeue i) i).ready ↔
      k ∉ i :: p.emitted ∧ outstanding g (i :: p.emitted) k = 0 := by
  rw [emit, mem_ready_foldl_release (nodup_dependents g i), mem_dependents_iff,
    outstanding_cons hg hi]
  have hnodup : p.ready.Nodup := h.pairwise_ready.imp ne_of_lt
  have herase : k ∈ p.ready.erase i ↔ k ≠ i ∧ k ∈ p.ready := hnodup.mem_erase_iff
  have hdone : (p.mark i).done.get k = false ↔ k ≠ i ∧ k ∉ p.emitted := by
    rw [← not_or, ← h.done_mark_iff, Bool.not_eq_true]
  simp only [mark] at hdone
  simp only [mark, dequeue, herase, h.mem_ready_iff, h.pending_eq, List.mem_cons, not_or, hdone]
  by_cases hdep : i ∈ g.dependencies k
  · have hwait := outstanding_ne_zero hi hdep
    simp only [hwait, hdep, if_true]
    tauto
  · simp only [hdep, if_false, false_and, or_false]
    tauto

/-- **Emission keeps the invariant**, for any position that is still to come: the queue may have
offered it, or a cycle may have been broken there. -/
theorem consistent_emit (hg : g.Simple) (h : Consistent g p) (hi : i ∉ p.emitted) :
    Consistent g (emit g (p.dequeue i) i) where
  nodup_emitted := by
    rw [emitted_emit]
    exact List.nodup_cons.2 ⟨hi, h.nodup_emitted⟩
  done_iff k := by
    rw [emitted_emit, List.mem_cons, emit, done_foldl_release]
    exact h.done_mark_iff
  pending_eq k := by
    rw [emit, pending_foldl_release (nodup_dependents g i), emitted_foldl_release]
    simp only [mark, dequeue, outstanding_cons hg hi, mem_dependents_iff, h.pending_eq]
  mem_ready_iff k := by
    rw [h.mem_ready_emit_iff hg hi, emitted_emit, dequeue]
  pairwise_ready := by
    refine pairwise_ready_foldl_release (nodup_dependents g i) (fun k hk hmem ↦ ?_)
      (h.pairwise_ready.sublist List.erase_sublist)
    -- whoever waits for `i` is not in the queue
    have hready := (h.mem_ready_iff k).1 (List.mem_of_mem_erase hmem)
    exact outstanding_ne_zero hi (mem_dependents_iff.1 hk) hready.2

/-! ### Breaking a cycle -/

/-- The head of an ordered list that holds all of them is the least of them. -/
theorem isLeast_of_pairwise {P : Fin n → Prop} {rest : List (Fin n)} (hi : P i)
    (hmem : ∀ k, P k → k ∈ i :: rest) (hsorted : (i :: rest).Pairwise (· < ·)) :
    IsLeast {k | P k} i := by
  refine ⟨hi, fun k hk ↦ ?_⟩
  rcases List.mem_cons.1 (hmem k hk) with rfl | hrest
  · exact le_refl k
  · exact le_of_lt ((List.pairwise_cons.1 hsorted).1 k hrest)

/-- A search through all positions that succeeds finds the lowest one. -/
theorem isLeast_of_find?_finRange {test : Fin n → Bool}
    (h : (List.finRange n).find? test = some i) : IsLeast {k | test k = true} i := by
  obtain ⟨hi, before, after, hsplit, hbefore⟩ := List.find?_eq_some_iff_append.1 h
  have hsorted : (i :: after).Pairwise (· < ·) := by
    refine (List.pairwise_lt_finRange n).sublist ?_
    rw [hsplit]
    exact List.sublist_append_right _ _
  refine isLeast_of_pairwise hi (fun k hk ↦ ?_) hsorted
  have hmem := List.mem_finRange k
  rw [hsplit, List.mem_append] at hmem
  refine hmem.resolve_left fun hk' ↦ ?_
  have hnot := hbefore k hk'
  rw [hk] at hnot
  exact absurd hnot (by decide)

/-- What is looked for is a position on a cycle of positions still to come. -/
theorem Consistent.onCycle_iff (h : Consistent g p) :
    (!p.done.get i && (g.cycleMembers p.done).get i) = true ↔
      OnCycle g.Edge (· ∉ p.emitted) i := by
  have halive : (fun j ↦ p.done.get j = false) = (· ∉ p.emitted) := by
    funext j
    rw [← Bool.not_eq_true, h.done_iff]
  rw [Bool.and_eq_true, Graph.get_cycleMembers_iff, halive]
  refine and_iff_right_of_imp fun hcycle ↦ ?_
  have hi : p.done.get i = false := by
    rw [congrFun halive i]
    exact hcycle.living
  simp [hi]

/-- Where there is a cycle, the lowest position that lies on any is found. -/
theorem exists_isLeast_cycleMember (h : Consistent g p)
    (hsome : ∃ k, OnCycle g.Edge (· ∉ p.emitted) k) :
    ∃ i, cycleMember? g p = some i ∧ IsLeast {k | OnCycle g.Edge (· ∉ p.emitted) k} i := by
  obtain ⟨k, hk⟩ := hsome
  have hfound : (cycleMember? g p).isSome := by
    rw [cycleMember?, List.find?_isSome]
    exact ⟨k, List.mem_finRange k, h.onCycle_iff.2 hk⟩
  obtain ⟨i, hi⟩ := Option.isSome_iff_exists.1 hfound
  have hleast := isLeast_of_find?_finRange hi
  exact ⟨i, hi, by simpa only [h.onCycle_iff] using hleast⟩

/-! ### Steps and runs -/

/-- A node is ready when it was not emitted and nothing is outstanding for it. -/
theorem ready_iff (hg : g.Simple) {emitted : List (Fin n)} :
    Ready g.Edge emitted i ↔ i ∉ emitted ∧ outstanding g emitted i = 0 := by
  rw [outstanding_eq_zero_iff]
  refine and_congr_right fun _ ↦ ⟨fun h j hj ↦ h j hj ?_, fun h j hj _ ↦ h j hj⟩
  rintro rfl
  exact hg.irrefl j hj

/-- The head of the queue is the lowest position that is ready. -/
theorem isLeast_ready (hg : g.Simple) (h : Consistent g p) {rest : List (Fin n)}
    (hr : p.ready = i :: rest) : IsLeast {k | Ready g.Edge p.emitted k} i := by
  have hmem : ∀ k, Ready g.Edge p.emitted k ↔ k ∈ i :: rest := by
    intro k
    rw [ready_iff hg, ← h.mem_ready_iff, hr]
  refine isLeast_of_pairwise ((hmem i).2 List.mem_cons_self) (fun k ↦ (hmem k).1) ?_
  rw [← hr]
  exact h.pairwise_ready

/-- With an empty queue and something left, there is a cycle to break. -/
theorem exists_onCycle_of_stalled (hleft : ∃ i, i ∉ p.emitted)
    (hnone : ∀ k, ¬Ready g.Edge p.emitted k) : ∃ k, OnCycle g.Edge (· ∉ p.emitted) k :=
  exists_onCycle hleft fun _ ↦ exists_awaited_of_stalled hnone

/-- An empty queue means that nothing is ready. -/
theorem Consistent.not_ready (hg : g.Simple) (h : Consistent g p) (hr : p.ready = []) (k : Fin n) :
    ¬Ready g.Edge p.emitted k := by
  rw [ready_iff hg, ← h.mem_ready_iff, hr]
  exact List.not_mem_nil

/-- **A stall finds a cycle.** With an empty queue and something left, the search for a position on
a cycle succeeds, and it finds the lowest one. -/
theorem Consistent.exists_cycleMember (hg : g.Simple) (h : Consistent g p)
    (hleft : ∃ i, i ∉ p.emitted) (hr : p.ready = []) :
    ∃ i, cycleMember? g p = some i ∧ IsLeast {k | OnCycle g.Edge (· ∉ p.emitted) k} i :=
  exists_isLeast_cycleMember h (exists_onCycle_of_stalled hleft (h.not_ready hg hr))

/-- As long as something is left, the next position of the schedule is taken. -/
theorem exists_next? (hg : g.Simple) (h : Consistent g p) (hleft : ∃ i, i ∉ p.emitted) :
    ∃ i, Next g.Edge p.emitted i ∧ next? g p = some (i, p.dequeue i) := by
  rcases hr : p.ready with - | ⟨i, rest⟩
  · obtain ⟨i, hi, hleast⟩ := h.exists_cycleMember hg hleft hr
    refine ⟨i, .stalled (h.not_ready hg hr) hleast, ?_⟩
    have hsame : p.dequeue i = p := by
      rw [dequeue, hr, List.erase_nil, ← hr]
    simp only [next?, hr, breakingPoint?, hi, Option.some_or, Option.map_some, hsame]
  · refine ⟨i, .ready (isLeast_ready hg h hr), ?_⟩
    simp only [next?, hr, dequeue, List.erase_cons_head]

/-- **One step.** As long as something is left, a step emits the next position of the schedule. -/
theorem exists_next_step (hg : g.Simple) (h : Consistent g p) (hleft : ∃ i, i ∉ p.emitted) :
    ∃ i p', Next g.Edge p.emitted i ∧ step? g p = some p' ∧ p'.emitted = i :: p.emitted ∧
      Consistent g p' := by
  obtain ⟨i, hnext, htake⟩ := exists_next? hg h hleft
  have hdone : (p.dequeue i).done.get i = false := by
    rw [← Bool.not_eq_true]
    exact mt (h.done_iff i).1 hnext.not_mem
  have hstep : step? g p = some (emit g (p.dequeue i) i) := by
    simp only [step?, htake, Option.map_some, hdone, Bool.false_eq_true, if_false]
  exact ⟨i, _, hnext, hstep, emitted_emit, consistent_emit hg h hnext.not_mem⟩

/-- A short list leaves some node out. -/
theorem exists_not_mem_of_length_lt {emitted : List (Fin n)} (h : emitted.length < n) :
    ∃ i, i ∉ emitted := by
  by_contra hall
  simp only [not_exists, not_not] at hall
  have hsub : List.finRange n ⊆ emitted := fun i _ ↦ hall i
  have hle := (List.nodup_finRange n).length_le_of_subset hsub
  rw [List.length_finRange] at hle
  omega

/-- A list of all the length without repetitions has every node. -/
theorem mem_of_length_eq {emitted : List (Fin n)} (hnd : emitted.Nodup) (h : emitted.length = n)
    (i : Fin n) : i ∈ emitted := by
  by_contra hi
  have hle := (List.nodup_cons.2 ⟨hi, hnd⟩).length_le_card
  rw [Fintype.card_fin, List.length_cons] at hle
  omega

/-- A run goes on from the state after one step. -/
theorem run_of_step? {p' : Progress n} (hlt : p.emitted.length < n) (h : step? g p = some p') :
    run g p = run g p' := by
  rw [run, if_pos hlt]
  split
  · next q hq => rw [Option.some_inj.1 (h.symm.trans hq)]
  · next hnone => exact absurd (h.symm.trans hnone) (by simp)

/-- A run stops when everything is emitted. -/
theorem run_of_length_eq (h : p.emitted.length = n) : run g p = p := by
  rw [run, if_neg (by omega)]

/-- **A run.** All positions that are left are emitted in the order of the schedule. -/
theorem exists_schedule_run (hg : g.Simple) {count : ℕ} (h : Consistent g p)
    (hcount : p.emitted.length + count = n) :
    ∃ order, Schedule g.Edge p.emitted order ∧
      (run g p).emitted = order.reverse ++ p.emitted := by
  induction count generalizing p with
  | zero =>
    rw [run_of_length_eq hcount]
    exact ⟨[], .done (mem_of_length_eq h.nodup_emitted hcount), rfl⟩
  | succ count ih =>
    have hlt : p.emitted.length < n := by omega
    obtain ⟨i, p', hnext, hstep, hemitted, hp'⟩ :=
      exists_next_step hg h (exists_not_mem_of_length_lt hlt)
    obtain ⟨order, horder, hrun⟩ := ih hp' (by rw [hemitted, List.length_cons]; omega)
    rw [hemitted] at horder hrun
    refine ⟨i :: order, .emit hnext horder, ?_⟩
    rw [run_of_step? hlt hstep, hrun, List.reverse_cons, List.append_assoc, List.singleton_append]

/-- **The order of emission is the schedule.** -/
theorem schedule_order (hg : g.Simple) : Schedule g.Edge [] g.order := by
  obtain ⟨order, horder, hrun⟩ := exists_schedule_run hg consistent_start (Nat.zero_add n)
  have heq : g.order = order := by
    rw [Graph.order, hrun]
    show (order.reverse ++ []).reverse = order
    rw [List.append_nil, List.reverse_reverse]
  rw [heq]
  exact horder

end Progress

end SchemaCodec
