import Mathlib.Data.Set.Card
import SchemaCodec.Proofs.Dependency.Sort

/-!
# The loop of the emission

`Progress.run` is a loop that goes on until everything is emitted. It is written so that it would
cope with positions that are emitted already, with counters at zero, and with a queue that runs
empty although no cycle is left. None of this happens. `AtTest` follows the loop from test to test;
at every test the state is consistent (`AtTest.consistent`), as many positions are emitted as there
were iterations, and the iteration that follows is `Regular`. So the loop ends after one iteration
for every position (`exists_atTest_run`).

For declarations, the counters can be read off the names alone (`outstanding_graph`).
-/

namespace SchemaCodec

namespace Progress

variable {n count : ℕ} {g : Graph n} {p : Progress n} {i j : Fin n}

/-- After `count` iterations, the test of the loop is reached in the state `p`. -/
inductive AtTest (g : Graph n) : (count : ℕ) → (p : Progress n) → Prop
  | start : AtTest g 0 (start g)
  | step {count : ℕ} {p p' : Progress n} (h : AtTest g count p) (hmore : p.emitted.length < n)
      (hstep : step? g p = some p') : AtTest g (count + 1) p'

/-- An iteration that needs none of the provisions it makes. -/
structure Regular (g : Graph n) (p : Progress n) : Prop where
  /-- There is a position to go on with. -/
  next : (next? g p).isSome
  /-- It has not been emitted. -/
  fresh : ∀ i q, next? g p = some (i, q) → q.done.get i = false
  /-- If the queue is empty, it lies on a cycle. -/
  cyclic : p.ready = [] → (cycleMember? g p).isSome
  /-- No counter is zero when its turn comes to be lowered. -/
  positive : ∀ i q, next? g p = some (i, q) → ∀ before j after,
    g.dependents i = before ++ j :: after → 0 < (before.foldl release (q.mark i)).pending.get j

/-- Whoever waits for the position that is emitted has a counter above zero, and keeps it until its
own turn. -/
theorem Consistent.pending_pos (h : Consistent g p) (hi : i ∉ p.emitted) {before after : List (Fin n)}
    (hsplit : g.dependents i = before ++ j :: after) :
    0 < (before.foldl release ((p.dequeue i).mark i)).pending.get j := by
  have hnodup : (before ++ j :: after).Nodup := hsplit ▸ nodup_dependents g i
  have hj : j ∉ before := fun hmem ↦
    (List.nodup_append.1 hnodup).2.2 j hmem j List.mem_cons_self rfl
  have hdep : j ∈ g.dependents i := by simp [hsplit]
  rw [pending_foldl_release (List.nodup_append.1 hnodup).1, if_neg hj]
  show 0 < p.pending.get j
  rw [h.pending_eq]
  exact Nat.pos_of_ne_zero (outstanding_ne_zero hi (mem_dependents_iff.1 hdep))

/-- Until everything is emitted, consistent states are regular. -/
theorem Consistent.regular (hg : g.Simple) (h : Consistent g p) (hmore : p.emitted.length < n) :
    Regular g p := by
  have hleft := exists_not_mem_of_length_lt hmore
  obtain ⟨i, hnext, htake⟩ := exists_next? hg h hleft
  have hpair {k : Fin n} {q : Progress n} (hk : next? g p = some (k, q)) :
      k = i ∧ q = p.dequeue i := by
    obtain ⟨rfl, rfl⟩ := Prod.mk.inj (Option.some_inj.1 (htake.symm.trans hk))
    exact ⟨rfl, rfl⟩
  refine ⟨Option.isSome_of_eq_some htake, fun k q hk ↦ ?_, fun hr ↦ ?_, fun k q hk before j after ↦ ?_⟩
  · obtain ⟨rfl, rfl⟩ := hpair hk
    rw [← Bool.not_eq_true]
    exact mt (h.done_iff k).1 hnext.not_mem
  · obtain ⟨k, hk, -⟩ := h.exists_cycleMember hg hleft hr
    exact Option.isSome_of_eq_some hk
  · obtain ⟨rfl, rfl⟩ := hpair hk
    exact h.pending_pos hnext.not_mem

/-- **The invariant holds at every test**, and each iteration has emitted one position. -/
theorem AtTest.consistent (hg : g.Simple) (h : AtTest g count p) :
    Consistent g p ∧ p.emitted.length = count := by
  induction h with
  | start => exact ⟨consistent_start, rfl⟩
  | step _ hmore hstep ih =>
    obtain ⟨i, p', -, hstep', hemitted, hp'⟩ :=
      exists_next_step hg ih.1 (exists_not_mem_of_length_lt hmore)
    obtain rfl := Option.some_inj.1 (hstep'.symm.trans hstep)
    exact ⟨hp', by rw [hemitted, List.length_cons, ih.2]⟩

/-- The loop counts at most as many steps as there are nodes. -/
theorem AtTest.count_le (hg : g.Simple) (h : AtTest g count p) : count ≤ n := by
  obtain ⟨hp, rfl⟩ := h.consistent hg
  simpa using hp.nodup_emitted.length_le_card

/-- Up to the number of positions, every number of iterations is reached. -/
theorem exists_atTest_run (hg : g.Simple) (hcount : count ≤ n) :
    ∃ p, AtTest g count p ∧ run g (start g) = run g p := by
  induction count with
  | zero => exact ⟨start g, .start, rfl⟩
  | succ count ih =>
    obtain ⟨p, hp, hrun⟩ := ih (by omega)
    obtain ⟨hconsistent, hlength⟩ := hp.consistent hg
    have hmore : p.emitted.length < n := by omega
    obtain ⟨i, p', -, hstep, -, -⟩ :=
      exists_next_step hg hconsistent (exists_not_mem_of_length_lt hmore)
    exact ⟨p', .step hp hmore hstep, hrun.trans (run_of_step? hmore hstep)⟩

end Progress

namespace Declaration

open Progress

/-- A counter in terms of names: how many other declarations are named and not emitted. -/
theorem outstanding_graph (ds : List Declaration) (emitted : List (Fin ds.length))
    (i : Fin ds.length) :
    outstanding (graph ds) emitted i = {j | Names ds i j ∧ j ≠ i ∧ j ∉ emitted}.ncard := by
  have hset : {j | Names ds i j ∧ j ≠ i ∧ j ∉ emitted} =
      ↑((dependencies ds i).filter fun j ↦ decide (j ∉ emitted)).toFinset := by
    ext j
    simp [mem_dependencies_iff, and_assoc]
  rw [hset, Set.ncard_coe_finset, List.toFinset_card_of_nodup ((nodup_dependencies ds i).filter _),
    outstanding, dependencies_graph]

/-- **The loop that sorts declarations.** At every test of the loop, emitted or not, a declaration's
counter is the number of other declarations that it names and that are not emitted; the queue holds
the declarations that are not emitted and have a counter of zero, each once; the output lists the
emitted ones, each once, and there are as many of them as there were iterations. The iteration that
follows is regular: it finds a position, on a cycle if nothing is ready, that is not yet emitted,
and lowers no counter that is zero. So the loop ends after as many iterations as there are
declarations. -/
theorem emission_loop (ds : List Declaration) :
    (∀ count p, AtTest (graph ds) count p →
      (∀ i, p.pending.get i = {j | Names ds i j ∧ j ≠ i ∧ j ∉ p.emitted}.ncard) ∧
      (∀ i, i ∈ p.ready ↔ i ∉ p.emitted ∧ p.pending.get i = 0) ∧ p.ready.Nodup ∧
      (∀ i, p.done.get i = true ↔ i ∈ p.emitted) ∧ p.emitted.Nodup ∧
      p.emitted.length = count ∧ count ≤ ds.length ∧
      (p.emitted.length < ds.length → Regular (graph ds) p)) ∧
    ∃ p, AtTest (graph ds) ds.length p ∧ run (graph ds) (start (graph ds)) = p := by
  have hg := simple_graph ds
  refine ⟨fun count p hp ↦ ?_, ?_⟩
  · obtain ⟨h, hlength⟩ := hp.consistent hg
    refine ⟨fun i ↦ ?_, fun i ↦ ?_, h.pairwise_ready.imp ne_of_lt, h.done_iff, h.nodup_emitted,
      hlength, hp.count_le hg, h.regular hg⟩
    · rw [h.pending_eq, outstanding_graph]
    · rw [h.pending_eq, h.mem_ready_iff]
  · obtain ⟨p, hp, hrun⟩ := exists_atTest_run hg (Nat.le_refl ds.length)
    exact ⟨p, hp, hrun.trans (run_of_length_eq (hp.consistent hg).2)⟩

/-- Two declarations that name each other. -/
def mutualPair : List Declaration :=
  [⟨"A", .named "B"⟩, ⟨"B", .named "A"⟩]

/-- With these nothing is ready at the first test, and the iteration is regular all the same. -/
theorem emission_loop_mutualPair :
    AtTest (graph mutualPair) 0 (start (graph mutualPair)) ∧
      (start (graph mutualPair)).ready = [] ∧
      Regular (graph mutualPair) (start (graph mutualPair)) := by
  obtain ⟨-, -, -, -, -, -, -, hregular⟩ := (emission_loop mutualPair).1 0 _ .start
  exact ⟨.start, by decide, hregular (by decide)⟩

end Declaration

end SchemaCodec
