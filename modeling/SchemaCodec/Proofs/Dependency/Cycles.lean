import SchemaCodec.Proofs.Dependency.Walk

/-!
# The walk finds the cycles

When the walk leaves a position whose low link is its own number (`AtRoot`), the positions above it
on the stack lead to each other and, apart from complete components, to nothing else
(`AtRoot.leads_root`, `AtRoot.above_or_closed_of_leads`). They are therefore a whole strongly
connected component, and one of them lies on a cycle exactly if there are at least two
(`AtRoot.onCycle_iff`).

Each step keeps the state sound (`inProgress_step`), hence so does a run (`inProgress_run`), at the
end of which the stack is empty. Once every position has had its turn as a start, all that is not
done has been entered, and the marks are exact (`Graph.get_cycleMembers_iff`).
-/

namespace SchemaCodec

namespace Walk

open Relation

variable {n : ℕ} {g : Graph n} {done : Vector Bool n} {awaited awaited' : Fin n → Fin n → Prop}
  {w : Walk n} {i j root : Fin n}

/-! ### The first position of a component -/

/-- `i` is on the stack and was entered no earlier than `root`. -/
def Above (w : Walk n) (root i : Fin n) : Prop :=
  i ∈ w.stack ∧ w.time root ≤ w.time i

/-- The walk is about to leave `root`, whose low link is its own number. -/
structure AtRoot (awaited : Fin n → Fin n → Prop) (w : Walk n) (root : Fin n) : Prop where
  mem_path : root ∈ w.path
  top : ∀ p ∈ w.path, w.time p ≤ w.time root
  low_eq : w.low.get root = w.time root
  followed : ∀ i, w.Above root i → ∀ j, ¬awaited i j

/-- The path ends in its highest number. -/
theorem Tidy.le_head (h : Tidy done w) {rest : List (Fin n)} (hpath : w.path = i :: rest) :
    ∀ p ∈ w.path, w.time p ≤ w.time i := by
  have hpairwise := h.pairwise_path
  rw [hpath, List.pairwise_cons] at hpairwise
  rw [hpath]
  intro p hp
  rcases List.mem_cons.1 hp with rfl | hp
  · exact le_refl _
  · exact (hpairwise.1 p hp).le

/-- Nothing above the end of the path is on the path. -/
theorem Tidy.eq_of_above (h : Tidy done w) (hroot : root ∈ w.path)
    (htop : ∀ p ∈ w.path, w.time p ≤ w.time root) (hi : w.Above root i) (hmem : i ∈ w.path) :
    i = root :=
  h.eq_of_time_eq hi.1 (h.path_subset hroot) (Nat.le_antisymm (htop i hmem) hi.2)

section Component

/-- From a closed node the walk can only lead to closed ones. -/
theorem Completed.closed_of_leads (h : Completed g done w) (hi : w.Closed i)
    (hij : Leads g done i j) : w.Closed j := by
  induction hij with
  | refl => exact hi
  | tail _ hstep ih => exact h.closed _ _ ih hstep.2.2 hstep.2.1

variable (h : Sound g done awaited w) (hroot : AtRoot awaited w root)
include h hroot

theorem AtRoot.mem_stack : root ∈ w.stack :=
  h.path_subset hroot.mem_path

theorem AtRoot.eq_of_mem_path (hi : w.Above root i) (hmem : i ∈ w.path) : i = root :=
  h.eq_of_above hroot.mem_path hroot.top hi hmem

/-- Edges out of the component lead to complete components only. -/
theorem AtRoot.above_or_closed_of_edge (hi : w.Above root i) (hij : g.Edge i j)
    (hj : done.get j = false) : w.Above root j ∨ w.Closed j := by
  have hentered : w.Entered j :=
    (h.entered_of_edge i j (h.entered i hi.1) hij hj).resolve_left (hroot.followed i hi j)
  by_cases hmem : j ∈ w.stack
  · obtain ⟨q, hq, hle, hlow⟩ := (h.low_bound root hroot.mem_path i hi.1 hi.2 j hmem hij).resolve_left
      (hroot.followed i hi j)
    -- the low link that accounts for the edge is that of the first position
    obtain rfl : q = root := hroot.eq_of_mem_path h ⟨h.path_subset hq, hle⟩ hq
    rw [hroot.low_eq] at hlow
    exact .inl ⟨hmem, hlow⟩
  · exact .inr ⟨hentered, hmem⟩

/-- What is above the root leads to what is above it or closed, so nothing leads back below the
root. -/
theorem AtRoot.above_or_closed_of_leads (hi : w.Above root i) (hij : Leads g done i j) :
    w.Above root j ∨ w.Closed j := by
  induction hij with
  | refl => exact .inl hi
  | tail _ hstep ih =>
    rcases ih with habove | hclosed
    · exact hroot.above_or_closed_of_edge h habove hstep.2.2 hstep.2.1
    · exact .inr (h.closed _ _ hclosed hstep.2.2 hstep.2.1)

/-- Everything above the first position leads back to it, by way of low links. -/
theorem AtRoot.leads_root (hi : w.Above root i) : Leads g done i root := by
  -- on the number of the position: its low link is smaller, and still above
  induction htime : w.time i using Nat.strong_induction_on generalizing i with
  | _ k ih =>
    by_cases hne : i = root
    · rw [hne]
      exact .refl
    · have hlt : w.low.get i < w.time i :=
        h.low_lt i hi.1 fun hmem ↦ hne (hroot.eq_of_mem_path h hi hmem)
      obtain ⟨j, hj, hjtime, hij⟩ := h.exists_low i hi.1
      have habove : w.Above root j :=
        (hroot.above_or_closed_of_leads h hi hij).resolve_right fun hclosed ↦ hclosed.2 hj
      exact hij.trans (ih (w.time j) (by omega) habove rfl)

/-- What leads to the component and is reached from it belongs to it. -/
theorem AtRoot.above_of_leads (hi : w.Above root i) (hij : Leads g done i j)
    (hji : Leads g done j i) : w.Above root j := by
  refine (hroot.above_or_closed_of_leads h hi hij).resolve_right fun hclosed ↦ ?_
  exact (h.closed_of_leads hclosed hji).2 hi.1

/-- **A member of the component lies on a cycle exactly if it is not the only one.** -/
theorem AtRoot.onCycle_iff (hi : w.Above root i) :
    OnCycle g.Edge (done.get · = false) i ↔ ∃ j, j ≠ i ∧ w.Above root j := by
  constructor
  · rintro ⟨j, hne, hij, hji⟩
    exact ⟨j, hne, hroot.above_of_leads h hi hij hji⟩
  · rintro ⟨j, hne, hj⟩
    have hmutual : ∀ {a b}, w.Above root a → w.Above root b → Leads g done a b := fun ha hb ↦
      (hroot.leads_root h ha).trans (h.leads root hroot.mem_path _ hb.1 hb.2)
    exact ⟨j, hne, hmutual hi hj, hmutual hj hi⟩

end Component

/-! ### Completing a component -/

theorem get_setAll {α : Type} (xs : Vector α n) (places : List (Fin n)) (x : α) (i : Fin n) :
    (setAll xs places x).get i = if i ∈ places then x else xs.get i := by
  induction places generalizing xs with
  | nil => rfl
  | cons j places ih =>
    rw [setAll, List.foldl_cons, ← setAll, ih, Graph.get_set]
    by_cases hij : j = i
    · simp [hij]
    · simp [hij, Ne.symm hij]

/-- What completing a component takes off the stack. -/
def component (w : Walk n) (root : Fin n) : List (Fin n) :=
  w.stack.take (w.stack.idxOf root + 1)

section Cut

variable (h : Tidy done w) (hroot : root ∈ w.stack)
include h hroot

/-- The stack is cut right behind the first position of the component. -/
theorem Tidy.exists_cut :
    ∃ before after, w.component root = before ++ [root] ∧ (w.complete root).stack = after ∧
      w.stack = before ++ root :: after ∧ (∀ i ∈ before, w.time root < w.time i) ∧
        ∀ i ∈ after, w.time i < w.time root := by
  obtain ⟨before, after, hsplit, hbefore⟩ := List.eq_append_cons_of_mem hroot
  have hlength : w.stack.idxOf root + 1 = (before ++ [root]).length := by
    rw [hsplit, List.idxOf_append_of_notMem hbefore, List.idxOf_cons_self, List.length_append,
      List.length_singleton, Nat.add_zero]
  have hcut : w.stack = (before ++ [root]) ++ after := by
    rw [hsplit, List.append_assoc, List.singleton_append]
  have hpairwise := h.pairwise_stack
  rw [hsplit, List.pairwise_append, List.pairwise_cons] at hpairwise
  obtain ⟨-, ⟨hafter, -⟩, hcross⟩ := hpairwise
  refine ⟨before, after, ?_, ?_, hsplit, fun i hi ↦ hcross i hi root List.mem_cons_self, hafter⟩
  · rw [component, hlength, hcut, List.take_left]
  · show w.stack.drop (w.stack.idxOf root + 1) = after
    rw [hlength, hcut, List.drop_left]

/-- The component that is split off is what stands above its root. -/
theorem Tidy.mem_component_iff : i ∈ w.component root ↔ w.Above root i := by
  obtain ⟨before, after, hcomponent, -, hsplit, hbefore, hafter⟩ := h.exists_cut hroot
  rw [hcomponent, Above, hsplit, List.mem_append, List.mem_append, List.mem_singleton, List.mem_cons]
  constructor
  · rintro (hi | rfl)
    · exact ⟨.inl hi, (hbefore i hi).le⟩
    · exact ⟨.inr (.inl rfl), le_refl _⟩
  · rintro ⟨hi | rfl | hi, hle⟩
    · exact .inl hi
    · exact .inr rfl
    · exact absurd (hafter i hi) (not_lt.2 hle)

/-- What was entered before the root stays on the stack. -/
theorem Tidy.mem_stack_complete_iff :
    i ∈ (w.complete root).stack ↔ i ∈ w.stack ∧ w.time i < w.time root := by
  obtain ⟨before, after, -, hrest, hsplit, hbefore, hafter⟩ := h.exists_cut hroot
  rw [hrest, hsplit, List.mem_append, List.mem_cons]
  constructor
  · exact fun hi ↦ ⟨.inr (.inr hi), hafter i hi⟩
  · rintro ⟨hi | rfl | hi, hlt⟩
    · exact absurd hlt (not_lt.2 (hbefore i hi).le)
    · exact absurd hlt (lt_irrefl _)
    · exact hi

/-- Whether there are at least two members does not depend on the member one looks from. -/
theorem Tidy.one_lt_length_component_iff (hi : w.Above root i) :
    1 < (w.component root).length ↔ ∃ j, j ≠ i ∧ w.Above root j := by
  have hmem (a : Fin n) : a ∈ w.component root ↔ w.Above root a := h.mem_component_iff hroot
  obtain ⟨before, after, hcomponent, -, -, hbefore, -⟩ := h.exists_cut hroot
  constructor
  · intro hlength
    rw [hcomponent, List.length_append, List.length_singleton] at hlength
    obtain ⟨b, hb⟩ := List.exists_mem_of_length_pos (l := before) (by omega)
    have hab : w.Above root b := (hmem b).1 (by simp [hcomponent, hb])
    by_cases hir : i = root
    · refine ⟨b, ?_, hab⟩
      rintro rfl
      exact absurd (hbefore b hb) (by simp [hir])
    · exact ⟨root, Ne.symm hir, hroot, le_refl _⟩
  · rintro ⟨j, hne, hj⟩
    by_contra hlength
    rw [hcomponent, List.length_append, List.length_singleton] at hlength
    have hnil : before = [] := List.length_eq_zero_iff.1 (by omega)
    rw [← hmem, hcomponent, hnil, List.nil_append, List.mem_singleton] at hi hj
    exact hne (hj.trans hi.symm)

end Cut

section Complete

variable {frames : List (Frame n)}

/-- Completing a component closes what stands above its root. -/
theorem closed_complete_iff (h : Tidy done w) (hroot : root ∈ w.stack) :
    (w.complete root).Closed i ↔ w.Closed i ∨ w.Above root i := by
  show w.Entered i ∧ i ∉ (w.complete root).stack ↔ _
  rw [h.mem_stack_complete_iff hroot, not_and, not_lt, Closed, Above]
  constructor
  · rintro ⟨hi, hnot⟩
    by_cases hmem : i ∈ w.stack
    · exact .inr ⟨hmem, hnot hmem⟩
    · exact .inl ⟨hi, hmem⟩
  · rintro (⟨hi, hmem⟩ | ⟨hmem, hle⟩)
    · exact ⟨hi, fun hmem' ↦ absurd hmem' hmem⟩
    · exact ⟨h.entered i hmem, fun _ ↦ hle⟩

/-- The marks still tell what is on the stack. -/
theorem onStack_complete_iff (h : Tidy done w) (hroot : root ∈ w.stack) :
    (w.complete root).onStack.get i = true ↔ i ∈ (w.complete root).stack := by
  show (setAll w.onStack (w.component root) false).get i = true ↔ _
  rw [get_setAll, h.mem_stack_complete_iff hroot, ← not_le]
  split
  · next hi =>
    have hle := ((h.mem_component_iff hroot).1 hi).2
    simp [hle]
  · next hi =>
    rw [h.mem_component_iff hroot, Above, not_and] at hi
    rw [h.onStack_iff]
    exact ⟨fun hmem ↦ ⟨hmem, hi hmem⟩, fun hmem ↦ hmem.1⟩

/-- A component of more than one node makes all its nodes cyclic. -/
theorem cyclic_complete_iff (h : Tidy done w) (hroot : root ∈ w.stack) :
    (w.complete root).cyclic.get i = true ↔
      w.cyclic.get i = true ∨ 1 < (w.component root).length ∧ w.Above root i := by
  show (if 1 < (w.component root).length then setAll w.cyclic (w.component root) true
    else w.cyclic).get i = true ↔ _
  rw [← h.mem_component_iff hroot]
  split
  · next hlength =>
    rw [get_setAll]
    split <;> simp_all
  · next hlength => simp [hlength]

/-- The path goes on below the first position of the component. -/
theorem Tidy.lt_of_mem_frames (h : Tidy done w)
    (hframes : w.path = root :: frames.map Frame.position) (hi : i ∈ frames.map Frame.position) :
    i ∈ w.path ∧ w.time i < w.time root := by
  have hpairwise := h.pairwise_path
  rw [hframes, List.pairwise_cons] at hpairwise
  rw [hframes]
  exact ⟨List.mem_cons_of_mem root hi, hpairwise.1 i hi⟩

/-- Completing a component keeps the walk tidy. -/
theorem Tidy.complete (h : Tidy done w) (hframes : w.path = root :: frames.map Frame.position) :
    Tidy done { w.complete root with frames } := by
  have hroot : root ∈ w.stack := h.path_subset (by simp [hframes])
  have hpairwise := h.pairwise_path
  rw [hframes, List.pairwise_cons] at hpairwise
  exact
    { onStack_iff := fun i ↦ onStack_complete_iff h hroot
      entered := fun i hi ↦ h.entered i ((h.mem_stack_complete_iff hroot).1 hi).1
      not_done := h.not_done
      time_lt := h.time_lt
      pairwise_stack := h.pairwise_stack.sublist (List.drop_sublist _ _)
      pairwise_path := hpairwise.2
      path_subset := fun p hp ↦ by
        obtain ⟨hmem, hlt⟩ := h.lt_of_mem_frames hframes hp
        exact (h.mem_stack_complete_iff hroot).2 ⟨h.path_subset hmem, hlt⟩ }

/-- Completing a component keeps the links of the nodes that remain. -/
theorem Linked.complete (h : Linked g done awaited w) (htidy : Tidy done w)
    (hlow : w.low.get root = w.time root)
    (hframes : w.path = root :: frames.map Frame.position) :
    Linked g done awaited { w.complete root with frames } := by
  have hroot : root ∈ w.stack := htidy.path_subset (by simp [hframes])
  have hmem (i : Fin n) : i ∈ (w.complete root).stack ↔ i ∈ w.stack ∧ w.time i < w.time root :=
    htidy.mem_stack_complete_iff hroot
  have hpath (p : Fin n) (hp : p ∈ frames.map Frame.position) : p ∈ w.path :=
    (htidy.lt_of_mem_frames hframes hp).1
  refine
    { leads := fun p hp i hi ↦ h.leads p (hpath p hp) i ((hmem i).1 hi).1
      low_le := fun i hi ↦ h.low_le i ((hmem i).1 hi).1
      low_lt := fun i hi hnot ↦ h.low_lt i ((hmem i).1 hi).1 ?_
      exists_low := fun i hi ↦ ?_
      entered_of_edge := h.entered_of_edge
      low_bound := fun p hp i hi hle j hj hij ↦ ?_ }
  · rw [hframes, List.mem_cons, not_or]
    refine ⟨?_, hnot⟩
    rintro rfl
    exact lt_irrefl _ ((hmem i).1 hi).2
  · obtain ⟨hi, hlt⟩ := (hmem i).1 hi
    obtain ⟨j, hj, hjtime, hij⟩ := h.exists_low i hi
    have hle := h.low_le i hi
    exact ⟨j, (hmem j).2 ⟨hj, by omega⟩, hjtime, hij⟩
  · obtain ⟨hj, hjlt⟩ := (hmem j).1 hj
    refine (h.low_bound p (hpath p hp) i ((hmem i).1 hi).1 hle j hj hij).imp_right ?_
    rintro ⟨q, hq, hpq, hqj⟩
    rw [hframes, List.mem_cons] at hq
    rcases hq with rfl | hq
    · -- the low link of the first position accounts for nothing below it
      rw [hlow] at hqj
      exact absurd hjlt (not_lt.2 hqj)
    · exact ⟨q, hq, hpq, hqj⟩

/-- **Completing a component.** What is above its first position leaves the stack, and is marked if
there are at least two. The first position leaves the path as well. -/
theorem Sound.complete (h : Sound g done awaited w) (hroot : AtRoot awaited w root)
    (hframes : w.path = root :: frames.map Frame.position) :
    Sound g done awaited { w.complete root with frames } := by
  have hstack := hroot.mem_stack h
  have hclosed (i : Fin n) : (w.complete root).Closed i ↔ w.Closed i ∨ w.Above root i :=
    closed_complete_iff h.toTidy hstack
  refine
    { toTidy := h.toTidy.complete hframes
      toLinked := h.toLinked.complete h.toTidy hroot.low_eq hframes
      closed := fun i j hi hij hj ↦ (hclosed j).2 ?_
      cyclic_iff := fun i ↦ ?_ }
  · rcases (hclosed i).1 hi with hi | hi
    · exact .inl (h.closed i j hi hij hj)
    · exact (hroot.above_or_closed_of_edge h hi hij hj).symm
  · have hcycle (hi : w.Above root i) :
        OnCycle g.Edge (done.get · = false) i ↔ 1 < (w.component root).length :=
      (hroot.onCycle_iff h hi).trans (h.one_lt_length_component_iff hstack hi).symm
    show (w.complete root).cyclic.get i = true ↔ (w.complete root).Closed i ∧ _
    rw [cyclic_complete_iff h.toTidy hstack, h.cyclic_iff, hclosed, or_and_right]
    refine or_congr_right ⟨fun ⟨hlength, hi⟩ ↦ ⟨hi, (hcycle hi).2 hlength⟩, fun ⟨hi, hon⟩ ↦ ?_⟩
    exact ⟨(hcycle hi).1 hon, hi⟩

end Complete

/-! ### Leaving a position -/

/-- Leaving a position that leads below itself: it stays on the stack, and the position it was
entered from accounts for what it accounted for. -/
theorem Sound.leave (h : Sound g done awaited w) {frames : List (Frame n)}
    (hframes : w.path = i :: frames.map Frame.position) (hlow : w.low.get i < w.time i)
    (hinherited : ∀ p ∈ frames.map Frame.position, ∃ q ∈ frames.map Frame.position,
      w.time p ≤ w.time q ∧ w.low.get q ≤ w.low.get i) :
    Sound g done awaited { w with frames } := by
  have hpath : frames.map Frame.position ⊆ w.path := by
    rw [hframes]
    exact List.subset_cons_self _ _
  have hpairwise := h.pairwise_path
  rw [hframes, List.pairwise_cons] at hpairwise
  exact
    { onStack_iff := h.onStack_iff
      entered := h.entered
      not_done := h.not_done
      time_lt := h.time_lt
      pairwise_stack := h.pairwise_stack
      pairwise_path := hpairwise.2
      path_subset := fun p hp ↦ h.path_subset (hpath hp)
      leads := fun p hp ↦ h.leads p (hpath hp)
      low_le := h.low_le
      low_lt := fun a ha hnot ↦ by
        by_cases hai : a = i
        · rw [hai]
          exact hlow
        · refine h.low_lt a ha ?_
          rw [hframes, List.mem_cons, not_or]
          exact ⟨hai, hnot⟩
      exists_low := h.exists_low
      entered_of_edge := h.entered_of_edge
      low_bound := fun p hp a ha hle b hb hab ↦ by
        refine (h.low_bound p (hpath hp) a ha hle b hb hab).imp_right ?_
        rintro ⟨q, hq, hpq, hqb⟩
        rw [hframes, List.mem_cons] at hq
        rcases hq with rfl | hq
        · obtain ⟨r, hr, hpr, hrq⟩ := hinherited p hp
          exact ⟨r, hr, hpr, hrq.trans hqb⟩
        · exact ⟨q, hq, hpq, hqb⟩
      closed := h.closed
      cyclic_iff := h.cyclic_iff }

/-- Leaving a position whose low link has been handed on. -/
theorem Sound.close (h : Sound g done awaited w) {frames : List (Frame n)}
    (hframes : w.path = i :: frames.map Frame.position) (hawaited : ∀ a b, awaited a b → a ∈ w.path)
    (hfollowed : ∀ b, ¬awaited i b)
    (hinherited : ∀ p ∈ frames.map Frame.position, ∃ q ∈ frames.map Frame.position,
      w.time p ≤ w.time q ∧ w.low.get q ≤ w.low.get i) :
    Sound g done awaited ({ w with frames }.close i) := by
  have hi : i ∈ w.path := by simp [hframes]
  have htop := h.le_head hframes
  have hnumber : w.number.get i = some (w.low.get i) ↔ w.low.get i = w.time i := by
    obtain ⟨k, hk⟩ := Option.isSome_iff_exists.1 (h.entered i (h.path_subset hi))
    simp [time, hk, eq_comm]
  unfold Walk.close
  split
  · next heq =>
    refine h.complete ⟨hi, htop, hnumber.1 heq, fun a ha b hab ↦ ?_⟩ hframes
    obtain rfl := h.eq_of_above hi htop ha (hawaited a b hab)
    exact hfollowed b hab
  · next hne =>
    have hle := h.low_le i (h.path_subset hi)
    exact h.leave hframes (lt_of_le_of_ne hle fun heq ↦ hne (hnumber.2 heq)) hinherited

/-- **Leaving the current position**, with nothing left to be followed from it. -/
theorem Sound.inherit_close (h : Sound g done awaited w) {frames : List (Frame n)}
    (hframes : w.path = i :: frames.map Frame.position) (hawaited : ∀ a b, awaited a b → a ∈ w.path)
    (hfollowed : ∀ b, ¬awaited i b) :
    Sound g done awaited (({ w with frames }.inherit i).close i) := by
  rcases frames with - | ⟨parent, frames⟩
  · exact h.close hframes hawaited hfollowed (by simp)
  · have hi : i ∈ w.path := by simp [hframes]
    have hparent : parent.position ∈ w.path := by simp [hframes]
    have hpairwise := h.pairwise_path
    rw [hframes, List.pairwise_cons, List.map_cons, List.pairwise_cons] at hpairwise
    have hlt : w.time parent.position < w.time i := hpairwise.1 _ List.mem_cons_self
    have hne : i ≠ parent.position := by
      intro heq
      rw [← heq] at hlt
      exact lt_irrefl _ hlt
    -- the parent leads to the position, and so to what the low link of the position stands for
    obtain ⟨j, hj, hjtime, hij⟩ := h.exists_low i (h.path_subset hi)
    have hlowered := h.lower hparent hj
      ((h.leads _ hparent i (h.path_subset hi) hlt.le).trans hij)
    rw [hjtime] at hlowered
    refine hlowered.close hframes hawaited hfollowed fun p hp ↦
      ⟨parent.position, List.mem_cons_self, ?_, ?_⟩
    · show w.time p ≤ w.time parent.position
      rcases List.mem_cons.1 hp with rfl | hp
      · exact le_refl _
      · exact (hpairwise.2.1 p hp).le
    · rw [low_lower_self, low_lower_of_ne _ hne]
      exact min_le_right _ _

/-! ### Steps and runs -/

/-- The edges that frames have still to follow. -/
def Awaits (frames : List (Frame n)) (i j : Fin n) : Prop :=
  ∃ f ∈ frames, f.position = i ∧ j ∈ f.remaining

theorem awaits_cons_iff {f : Frame n} {frames : List (Frame n)} :
    Awaits (f :: frames) i j ↔ f.position = i ∧ j ∈ f.remaining ∨ Awaits frames i j := by
  simp [Awaits]

/-- Only nodes on the path await others. -/
theorem Awaits.mem_path {frames : List (Frame n)} (h : Awaits frames i j) :
    i ∈ frames.map Frame.position := by
  obtain ⟨f, hf, rfl, -⟩ := h
  exact List.mem_map_of_mem hf

/-- What holds of a walk between two steps. -/
structure InProgress (g : Graph n) (done : Vector Bool n) (w : Walk n) : Prop extends
    Sound g done (Awaits w.frames) w where
  edge : ∀ i j, Awaits w.frames i j → g.Edge i j

/-- **Following an edge** from the current position. -/
theorem Sound.follow (h : Sound g done awaited w) {rest : List (Fin n)} (hpath : w.path = i :: rest)
    (hedge : g.Edge i j) (hawaited : ∀ a b, awaited a b → (a = i ∧ b = j) ∨ Awaits w.frames a b) :
    Sound g done (Awaits (w.follow g done i j).frames) (w.follow g done i j) := by
  have hi : i ∈ w.path := by simp [hpath]
  have hstack := h.path_subset hi
  have htop := h.le_head hpath
  unfold Walk.follow
  split
  · next hdone =>
    refine h.settle hi htop (fun halive ↦ ?_) (fun hj ↦ ?_) hawaited
    · rw [hdone] at halive
      exact absurd halive (by decide)
    · rw [h.not_done j (h.entered j hj)] at hdone
      exact absurd hdone (by decide)
  · next hdone =>
    have halive : done.get j = false := by simpa using hdone
    have hleads : Leads g done i j :=
      .single ⟨h.not_done i (h.entered i hstack), halive, hedge⟩
    split
    · next hnone =>
      refine h.enter (by simp [Entered, hnone]) halive (fun p hp ↦ ?_) (fun b hb ↦ ?_)
        fun a b hab ↦ ?_
      · exact (h.leads p hp i hstack (htop p hp)).trans hleads
      · exact awaits_cons_iff.2 (.inl ⟨rfl, hb⟩)
      · rcases hawaited a b hab with ⟨-, rfl⟩ | hab
        · exact .inl rfl
        · exact .inr (awaits_cons_iff.2 (.inr hab))
    · next k hk =>
      have hentered : w.Entered j := by simp [Entered, hk]
      have htime : w.time j = k := by simp [time, hk]
      split
      · next hon =>
        have hlowered := h.lower hi ((h.onStack_iff j).1 hon) hleads
        rw [htime] at hlowered
        refine hlowered.settle hi htop (fun _ ↦ hentered) (fun _ ↦ ?_) hawaited
        rw [low_lower_self]
        exact (min_le_right _ _).trans htime.ge
      · next hon =>
        refine h.settle hi htop (fun _ ↦ hentered) (fun hj ↦ ?_) hawaited
        exact absurd ((h.onStack_iff j).2 hj) hon

/-- Following an edge awaits nothing but edges in addition. -/
theorem awaits_follow {a b : Fin n} (h : Awaits (w.follow g done i j).frames a b) :
    Awaits w.frames a b ∨ g.Edge a b := by
  unfold Walk.follow at h
  split at h
  · exact .inl h
  · split at h
    · rcases awaits_cons_iff.1 h with ⟨rfl, hb⟩ | hab
      · exact .inr hb
      · exact .inl hab
    · split at h <;> exact .inl h

/-- **One step keeps the walk sound.** -/
theorem inProgress_step (h : InProgress g done w) : InProgress g done (step g done w) := by
  obtain ⟨hsound, hedge⟩ := h
  rcases hw : w.frames with - | ⟨⟨i, - | ⟨j, remaining⟩⟩, frames⟩
  · rw [hw] at hsound hedge
    simp only [step, hw]
    exact ⟨hw ▸ hsound, hw ▸ hedge⟩
  · have hpath : w.path = i :: frames.map Frame.position := by
      rw [path, hw, List.map_cons]
    have hawaits : Awaits w.frames = Awaits frames := by
      funext a b
      simp [hw, awaits_cons_iff]
    rw [hawaits] at hsound hedge
    have hleft : Sound g done (Awaits frames) (({ w with frames }.inherit i).close i) := by
      refine hsound.inherit_close hpath (fun a b hab ↦ ?_) fun b hib ↦ ?_
      · rw [hpath]
        exact List.mem_cons_of_mem i hab.mem_path
      · exact lt_irrefl _ (hsound.lt_of_mem_frames hpath hib.mem_path).2
    simp only [step, hw]
    constructor
    · rw [(close_inherit _ i).1]
      exact hleft
    · rw [(close_inherit _ i).1]
      exact hedge
  · have hpath : w.path = i :: frames.map Frame.position := by
      rw [path, hw, List.map_cons]
    have hawaits : ∀ a b, Awaits w.frames a b ↔
        (a = i ∧ b = j) ∨ Awaits (⟨i, remaining⟩ :: frames) a b := by
      intro a b
      simp only [hw, awaits_cons_iff, List.mem_cons]
      grind
    simp only [step, hw]
    have htaken : Sound g done (Awaits w.frames) { w with frames := ⟨i, remaining⟩ :: frames } :=
      hsound.with_frames hpath.symm
    have hij : g.Edge i j := hedge i j ((hawaits i j).2 (.inl ⟨rfl, rfl⟩))
    refine ⟨htaken.follow rfl hij fun a b ↦ (hawaits a b).1, fun a b hab ↦ ?_⟩
    exact (awaits_follow hab).elim (fun hab ↦ hedge a b ((hawaits a b).2 (.inr hab))) id

/-- A run stops only when no frame is left. -/
theorem frames_run (w : Walk n) : (run g done w).frames = [] := by
  induction w using run.induct g done with
  | case1 w hw => rwa [run, if_pos hw]
  | case2 w hw ih => rwa [run, if_neg hw]

/-- **A run keeps the walk sound.** -/
theorem inProgress_run (h : InProgress g done w) : InProgress g done (run g done w) := by
  induction w using run.induct g done with
  | case1 w hw => rwa [run, if_pos hw]
  | case2 w hw ih =>
    rw [run, if_neg hw]
    exact ih (inProgress_step h)

theorem entered_step (h : w.Entered i) : (step g done w).Entered i := by
  unfold step
  split
  · exact h
  · rw [Entered, (close_inherit _ _).2]
    exact h
  · unfold Walk.follow
    split
    · exact h
    · split
      · exact entered_enter_iff.2 (.inr h)
      · split <;> exact h

theorem entered_run (h : w.Entered i) : (run g done w).Entered i := by
  induction w using run.induct g done with
  | case1 w hw => rwa [run, if_pos hw]
  | case2 w hw ih =>
    rw [run, if_neg hw]
    exact ih (entered_step h)

/-! ### The whole walk -/

/-- Between two runs the stack is empty: a position on it would lead to a lower one for ever. -/
theorem Linked.not_mem_stack (h : Linked g done awaited w) (hpath : w.path = []) (i : Fin n) :
    i ∉ w.stack := by
  intro hi
  induction htime : w.time i using Nat.strong_induction_on generalizing i with
  | _ k ih =>
    have hlt := h.low_lt i hi (by simp [hpath])
    obtain ⟨j, hj, hjtime, -⟩ := h.exists_low i hi
    exact ih (w.time j) (by omega) j hj rfl

/-- **A visit** brings its root in, and ends as it began, with nothing in progress. -/
theorem inProgress_visit (h : InProgress g done w) (hframes : w.frames = []) (root : Fin n) :
    InProgress g done (visit g done w root) ∧ (visit g done w root).frames = [] ∧
      (done.get root = false → (visit g done w root).Entered root) ∧
        ∀ i, w.Entered i → (visit g done w root).Entered i := by
  unfold visit
  split
  · next hskip =>
    refine ⟨h, hframes, fun halive ↦ ?_, fun _ hi ↦ hi⟩
    show (w.number.get root).isSome = true
    simpa [halive] using hskip
  · next hskip =>
    rw [Bool.or_eq_true, not_or, Bool.not_eq_true] at hskip
    have hentered : InProgress g done (w.enter g root) := by
      refine ⟨h.enter hskip.2 hskip.1 (by simp [path, hframes]) (fun b hb ↦ ?_) fun a b hab ↦ ?_,
        fun a b hab ↦ ?_⟩
      · exact awaits_cons_iff.2 (.inl ⟨rfl, hb⟩)
      · exact .inr (awaits_cons_iff.2 (.inr hab))
      · rcases awaits_cons_iff.1 hab with ⟨rfl, hb⟩ | hab
        · exact hb
        · exact h.edge a b hab
    exact ⟨inProgress_run hentered, frames_run _,
      fun _ ↦ entered_run (entered_enter_iff.2 (.inl rfl)),
      fun i hi ↦ entered_run (entered_enter_iff.2 (.inr hi))⟩

/-- Visiting root after root keeps the invariant, and every living root is entered in the end. -/
theorem inProgress_foldl_visit (h : InProgress g done w) (hframes : w.frames = [])
    (roots : List (Fin n)) :
    InProgress g done (roots.foldl (visit g done) w) ∧ (roots.foldl (visit g done) w).frames = [] ∧
      ∀ i, w.Entered i ∨ i ∈ roots ∧ done.get i = false →
        (roots.foldl (visit g done) w).Entered i := by
  induction roots generalizing w with
  | nil => exact ⟨h, hframes, fun i hi ↦ hi.resolve_right (by simp)⟩
  | cons root roots ih =>
    obtain ⟨hvisit, hframes', hroot, hkeep⟩ := inProgress_visit h hframes root
    obtain ⟨hrest, hframes'', hentered⟩ := ih hvisit hframes'
    refine ⟨hrest, hframes'', fun i hi ↦ hentered i ?_⟩
    rcases hi with hi | ⟨hi, halive⟩
    · exact .inl (hkeep i hi)
    · rcases List.mem_cons.1 hi with rfl | hi
      · exact .inl (hroot halive)
      · exact .inr ⟨hi, halive⟩

end Walk

namespace Graph

variable {n : ℕ} {g : Graph n} {done : Vector Bool n} {i : Fin n}

/-- **The marks are exact.** -/
theorem get_cycleMembers_iff :
    (g.cycleMembers done).get i = true ↔ OnCycle g.Edge (done.get · = false) i := by
  have hstart : Walk.InProgress g done (Walk.start n) :=
    ⟨Walk.sound_start _, fun i j hij ↦ absurd hij.mem_path List.not_mem_nil⟩
  obtain ⟨hend, hframes, hentered⟩ := Walk.inProgress_foldl_visit hstart rfl (List.finRange n)
  rw [cycleMembers, hend.cyclic_iff, and_iff_right_of_imp]
  intro hcycle
  refine ⟨hentered i (.inr ⟨List.mem_finRange i, hcycle.living⟩), ?_⟩
  exact hend.not_mem_stack (by rw [Walk.path, hframes, List.map_nil]) i

/-- **The detector of cycles is correct.** For any graph, repeated edges and edges from a position
to itself included, and any positions that are done: the walk comes to an end, and a position is
marked exactly if it is not done and some other position that is not done is reached from it and
leads back to it through positions that are not done. -/
theorem get_cycleMembers_iff_mutually_reachable (g : Graph n) (done : Vector Bool n) (i : Fin n) :
    (g.cycleMembers done).get i = true ↔
      done.get i = false ∧ ∃ j, j ≠ i ∧ done.get j = false ∧
        Reaches g.Edge (done.get · = false) i j ∧ Reaches g.Edge (done.get · = false) j i := by
  rw [get_cycleMembers_iff]
  constructor
  · intro hi
    have halive : done.get i = false := hi.living
    obtain ⟨j, hne, hij, hji⟩ := hi
    have hj : OnCycle g.Edge (done.get · = false) j := ⟨i, hne.symm, hji, hij⟩
    exact ⟨halive, j, hne, hj.living, hij, hji⟩
  · rintro ⟨-, j, hne, -, hij, hji⟩
    exact ⟨j, hne, hij, hji⟩

-- once `0` is done, `1` is left alone: it still depends on `0`, and on the cycle of `2` and `3`
example : cycleMembers ⟨#v[[1], [0, 2], [3], [2], [4]]⟩ #v[true, false, false, false, false] =
    #v[false, false, true, true, false] := by
  cbv

end Graph

end SchemaCodec
