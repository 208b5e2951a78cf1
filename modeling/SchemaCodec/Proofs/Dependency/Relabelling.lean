import SchemaCodec.Proofs.Dependency.Sort

/-!
# Schedules under other numbers

What is ready and what lies on a cycle depends on the steps between positions and on what has been
emitted, but not on the numbers that positions have. Suppose that the positions of one relation
stand, by other numbers, among those of a second one, with the same steps and none that leads out
(`IsCopy`). Then the two agree on what is ready and on what lies on a cycle, and they choose the
same position next as long as the numbers to come are not out of order with the one chosen
(`IsCopy.next`).

Where the copy is all of the second relation, a schedule can be read back through it
(`IsCopy.schedule`). Reading the schedule of a list of declarations by the places it assigns gives
the schedule of the sorted list, and that is the order in which the sorted list already stands:
sorting it again changes nothing (`sort_sort`).
-/

namespace SchemaCodec

open Relation

/-- The positions of `r` stand for some of the positions of `s`, with the same steps, and no step
leads out of them. -/
structure IsCopy {m n : ℕ} (e : Fin m → Fin n) (r : Fin m → Fin m → Prop)
    (s : Fin n → Fin n → Prop) : Prop where
  injective : Function.Injective e
  step_iff : ∀ i j, r i j ↔ s (e i) (e j)
  closed : ∀ i k, s (e i) k → k ∈ Set.range e

namespace IsCopy

variable {m n : ℕ} {e : Fin m → Fin n} {r : Fin m → Fin m → Prop} {s : Fin n → Fin n → Prop}
  {emitted order : List (Fin m)} {emitted' : List (Fin n)} {i : Fin m}

/-- Copies of a relation have the same nodes ready. -/
theorem ready_iff (h : IsCopy e r s) (hemitted : ∀ i, i ∈ emitted ↔ e i ∈ emitted') :
    Ready r emitted i ↔ Ready s emitted' (e i) := by
  rw [Ready, Ready, hemitted]
  refine and_congr_right fun _ ↦ ⟨fun hr k hk hne ↦ ?_, fun hs j hj hne ↦ ?_⟩
  · obtain ⟨j, rfl⟩ := h.closed i k hk
    rw [← hemitted]
    exact hr j ((h.step_iff i j).2 hk) fun hji ↦ hne (congrArg e hji)
  · rw [hemitted]
    exact hs (e j) ((h.step_iff i j).1 hj) fun hji ↦ hne (h.injective hji)

/-- What is reached from the copy lies in the copy, and is reached within it. -/
theorem reaches_iff (h : IsCopy e r s) (hemitted : ∀ i, i ∈ emitted ↔ e i ∈ emitted')
    {k : Fin n} :
    Reaches s (· ∉ emitted') (e i) k ↔ ∃ j, e j = k ∧ Reaches r (· ∉ emitted) i j := by
  constructor
  · intro hreach
    induction hreach with
    | refl => exact ⟨i, rfl, .refl⟩
    | tail _ hstep ih =>
      obtain ⟨j, rfl, hij⟩ := ih
      obtain ⟨hj, hk, hjk⟩ := hstep
      obtain ⟨l, rfl⟩ := h.closed j _ hjk
      rw [← hemitted] at hj hk
      exact ⟨l, rfl, hij.tail ⟨hj, hk, (h.step_iff j l).2 hjk⟩⟩
  · rintro ⟨j, rfl, hij⟩
    refine ReflTransGen.lift e (fun a b hab ↦ ?_) i j hij
    obtain ⟨ha, hb, hab⟩ := hab
    rw [hemitted] at ha hb
    exact ⟨ha, hb, (h.step_iff a b).1 hab⟩

/-- Copies of a relation have the same nodes on cycles. -/
theorem onCycle_iff (h : IsCopy e r s) (hemitted : ∀ i, i ∈ emitted ↔ e i ∈ emitted') :
    OnCycle r (· ∉ emitted) i ↔ OnCycle s (· ∉ emitted') (e i) := by
  constructor
  · rintro ⟨j, hne, hij, hji⟩
    exact ⟨e j, fun heq ↦ hne (h.injective heq), (h.reaches_iff hemitted).2 ⟨j, rfl, hij⟩,
      (h.reaches_iff hemitted).2 ⟨i, rfl, hji⟩⟩
  · rintro ⟨k, hne, hik, hki⟩
    obtain ⟨j, rfl, hij⟩ := (h.reaches_iff hemitted).1 hik
    obtain ⟨l, hl, hjl⟩ := (h.reaches_iff hemitted).1 hki
    obtain rfl := h.injective hl
    exact ⟨j, fun heq ↦ hne (congrArg e heq), hij, hjl⟩

/-- What `s` chooses in the copy is what `r` chooses, if nothing to come that has a higher number in
`s` has a lower one in `r`. -/
theorem next (h : IsCopy e r s) (hemitted : ∀ i, i ∈ emitted ↔ e i ∈ emitted')
    (hle : ∀ k, k ∉ emitted → e i ≤ e k → i ≤ k) (hnext : Next s emitted' (e i)) :
    Next r emitted i := by
  rcases hnext with ⟨hready, hleast⟩ | ⟨hnone, hcycle, hleast⟩
  · refine .ready ⟨(h.ready_iff hemitted).2 hready, fun k hk ↦ ?_⟩
    exact hle k hk.1 (hleast ((h.ready_iff hemitted).1 hk))
  · refine .stalled (fun k hk ↦ hnone _ ((h.ready_iff hemitted).1 hk))
      ⟨(h.onCycle_iff hemitted).2 hcycle, fun k hk ↦ ?_⟩
    have halive : OnCycle r (· ∉ emitted) k := hk
    exact hle k halive.living (hleast ((h.onCycle_iff hemitted).1 hk))

/-- **A schedule is read back through a copy**, unless the copy turns a choice around: a position
that comes later in the schedule, and has a higher number there, has a higher number in the copy
too. -/
theorem schedule (h : IsCopy e r s) (hschedule : Schedule s emitted' (order.map e))
    (hemitted : ∀ i, i ∈ emitted ↔ e i ∈ emitted')
    (hle : order.Pairwise fun i k ↦ e i ≤ e k → i ≤ k) : Schedule r emitted order := by
  induction order generalizing emitted emitted' with
  | nil =>
    cases hschedule with
    | done hall => exact .done fun i ↦ (hemitted i).2 (hall (e i))
  | cons i order ih =>
    obtain ⟨hhead, htail⟩ := List.pairwise_cons.1 hle
    -- everything to come is in the rest of the order
    have hcoming : ∀ k, k ∉ emitted → e i ≤ e k → i ≤ k := by
      intro k hk hik
      have hmem : e k ∈ (i :: order).map e := hschedule.mem_iff.2 fun hk' ↦ hk ((hemitted k).2 hk')
      rw [List.mem_map_of_injective h.injective, List.mem_cons] at hmem
      rcases hmem with rfl | hmem
      · exact le_rfl
      · exact hhead k hmem hik
    cases hschedule with
    | emit hnext hrest =>
      refine .emit (h.next hemitted hcoming hnext) (ih hrest (fun j ↦ ?_) htail)
      rw [List.mem_cons, List.mem_cons, hemitted, h.injective.eq_iff]

end IsCopy

namespace Declaration

variable {ds : List Declaration}

/-! ### Sorting what is sorted -/

/-- The position from which sorting took a declaration. -/
def originalPosition (ds : List Declaration) (i : Fin (sort ds).length) : Fin ds.length :=
  (graph ds).order.get (i.cast (length_sort ds))

theorem get_originalPosition (i : Fin (sort ds).length) :
    ds.get (originalPosition ds i) = (sort ds).get i :=
  (List.getElem_map ds.get).symm

/-- The original positions, in sorted order, are the computed order. -/
theorem map_originalPosition_finRange (ds : List Declaration) :
    (List.finRange (sort ds).length).map (originalPosition ds) = (graph ds).order := by
  refine List.ext_getElem (by simp [length_sort]) fun k hk hk' ↦ ?_
  simp [originalPosition]

/-- With distinct names, the sorted declarations name each other as they did before. -/
theorem isCopy_originalPosition (hnd : (ds.map Declaration.name).Nodup) :
    IsCopy (originalPosition ds) (Names (sort ds)) (Names ds) where
  injective i j hij := by
    have hcast := (schedule_order_graph ds).nodup.injective_get hij
    exact Fin.cast_injective _ hcast
  step_iff i j := by
    have hnd' : ((sort ds).map Declaration.name).Nodup := ((sort_perm ds).map _).nodup_iff.2 hnd
    simp only [Names, denotes_iff_of_nodup hnd, denotes_iff_of_nodup hnd', get_originalPosition]
  closed _ k _ := by
    have hmem : k ∈ (graph ds).order := (schedule_order_graph ds).mem_iff.2 List.not_mem_nil
    rw [← map_originalPosition_finRange, List.mem_map] at hmem
    obtain ⟨i, -, hi⟩ := hmem
    exact ⟨i, hi⟩

/-- **Sorting a sorted list changes nothing**, whatever cycles, self references and unknown names it
has: at every step the first declaration still to come is the one that is chosen. -/
theorem sort_sort (hnd : (ds.map Declaration.name).Nodup) : sort (sort ds) = sort ds := by
  have hread : Schedule (Names ds) []
      ((List.finRange (sort ds).length).map (originalPosition ds)) := by
    rw [map_originalPosition_finRange]
    exact schedule_order_graph ds
  have hinorder : (List.finRange (sort ds).length).Pairwise
      fun i k ↦ originalPosition ds i ≤ originalPosition ds k → i ≤ k :=
    (List.pairwise_lt_finRange _).imp fun hlt _ ↦ hlt.le
  have hschedule : Schedule (Names (sort ds)) [] (List.finRange (sort ds).length) :=
    (isCopy_originalPosition hnd).schedule hread (by simp) hinorder
  rw [sort, ← hschedule.unique (schedule_order_graph (sort ds)), List.map_get_finRange]

/-- Two declarations on a cycle, with one in front that names into it, and one behind that names
itself and something undeclared. -/
def crossing : List Declaration :=
  [⟨"Uses", .named "A"⟩, ⟨"A", .array (.named "B")⟩, ⟨"B", .union [.null, .named "A"]⟩,
    ⟨"Free", .union [.named "Free", .named "Unknown"]⟩]

/-- Sorting moves what it can: `Uses` is on no cycle and cannot stay before `A`. -/
theorem sort_crossing_ne : sort crossing ≠ crossing := by
  intro hsame
  have hnd : (crossing.map Declaration.name).Nodup := by decide
  have hforward : ∀ i j, Names crossing i j → i ≤ j → TransGen (Names crossing) i i := by
    have hsorted := @transGen_of_names_forward crossing hnd
    rw [hsame] at hsorted
    exact fun i j ↦ hsorted
  have huses : Names crossing ⟨0, by decide⟩ ⟨1, by decide⟩ :=
    ⟨"A", by decide, (denotes_iff_of_nodup hnd).2 rfl⟩
  obtain ⟨k, -, name, hname, hdenotes⟩ :=
    TransGen.tail'_iff.1 (hforward _ _ huses (by decide))
  obtain rfl : "Uses" = name := hdenotes.name_eq
  revert hname
  revert k
  decide

theorem sort_sort_crossing :
    (crossing.map Declaration.name).Nodup ∧ sort crossing ≠ crossing ∧
      sort (sort crossing) = sort crossing :=
  ⟨by decide, sort_crossing_ne, sort_sort (by decide)⟩

end Declaration

end SchemaCodec
