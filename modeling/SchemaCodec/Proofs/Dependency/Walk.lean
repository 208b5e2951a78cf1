import SchemaCodec.Dependency.Cycles
import SchemaCodec.Proofs.Dependency.Reachability

/-!
# What a walk knows about the graph

A walk in progress has entered some positions; those of incomplete components are on its stack, and
those on the way back to its start form its path. `Sound` is what holds of all of that at every
moment, in three groups:

* `Tidy`: the stack and the path are ordered by the numbers of their positions, and the path lies on
  the stack;
* `Linked`: a position of the path leads to everything above it on the stack, a low link is the
  number of a position on the stack that is reached, and below its own number for a position that has
  been left; what has been followed out of the stack is accounted for by some low link on the path;
* `Completed`: nothing leads out of the complete components, and their members are marked exactly if
  they lie on a cycle.

The edges that are still to be followed enter into this as an arbitrary relation `awaited`, so that
an edge can be taken up first and dealt with afterwards.
-/

namespace SchemaCodec

namespace Walk

open Relation

variable {n : ℕ} {g : Graph n} {done : Vector Bool n} {awaited awaited' : Fin n → Fin n → Prop}
  {w : Walk n} {i j root : Fin n}

/-! ### Views of the state -/

/-- The number of a position. -/
def time (w : Walk n) (i : Fin n) : ℕ :=
  (w.number.get i).getD 0

/-- The position has been entered. -/
def Entered (w : Walk n) (i : Fin n) : Prop :=
  (w.number.get i).isSome = true

/-- The component of the position is complete. -/
def Closed (w : Walk n) (i : Fin n) : Prop :=
  w.Entered i ∧ i ∉ w.stack

/-- The positions from the current one back to the start. -/
def path (w : Walk n) : List (Fin n) :=
  w.frames.map Frame.position

/-- `j` can be reached from `i` through positions that are not done. -/
abbrev Leads (g : Graph n) (done : Vector Bool n) : Fin n → Fin n → Prop :=
  Reaches g.Edge (done.get · = false)

/-! ### The invariant -/

/-- The state is in order. -/
structure Tidy (done : Vector Bool n) (w : Walk n) : Prop where
  onStack_iff : ∀ i, w.onStack.get i = true ↔ i ∈ w.stack
  entered : ∀ i ∈ w.stack, w.Entered i
  not_done : ∀ i, w.Entered i → done.get i = false
  time_lt : ∀ i, w.Entered i → w.time i < w.next
  pairwise_stack : w.stack.Pairwise fun i j ↦ w.time j < w.time i
  pairwise_path : w.path.Pairwise fun i j ↦ w.time j < w.time i
  path_subset : w.path ⊆ w.stack

/-- The low links tell what has been found out about the positions on the stack. -/
structure Linked (g : Graph n) (done : Vector Bool n) (awaited : Fin n → Fin n → Prop)
    (w : Walk n) : Prop where
  leads : ∀ p ∈ w.path, ∀ i ∈ w.stack, w.time p ≤ w.time i → Leads g done p i
  low_le : ∀ i ∈ w.stack, w.low.get i ≤ w.time i
  low_lt : ∀ i ∈ w.stack, i ∉ w.path → w.low.get i < w.time i
  exists_low : ∀ i ∈ w.stack, ∃ j ∈ w.stack, w.time j = w.low.get i ∧ Leads g done i j
  entered_of_edge : ∀ i j, w.Entered i → g.Edge i j → done.get j = false →
    awaited i j ∨ w.Entered j
  low_bound : ∀ p ∈ w.path, ∀ i ∈ w.stack, w.time p ≤ w.time i → ∀ j ∈ w.stack, g.Edge i j →
    awaited i j ∨ ∃ q ∈ w.path, w.time p ≤ w.time q ∧ w.low.get q ≤ w.time j

/-- The complete components are settled. -/
structure Completed (g : Graph n) (done : Vector Bool n) (w : Walk n) : Prop where
  closed : ∀ i j, w.Closed i → g.Edge i j → done.get j = false → w.Closed j
  cyclic_iff : ∀ i, w.cyclic.get i = true ↔
    w.Closed i ∧ OnCycle g.Edge (done.get · = false) i

/-- What holds of a walk at every moment. -/
structure Sound (g : Graph n) (done : Vector Bool n) (awaited : Fin n → Fin n → Prop)
    (w : Walk n) : Prop extends Tidy done w, Linked g done awaited w, Completed g done w

/-- The walk starts in a sound state: nothing was entered. -/
theorem sound_start (awaited : Fin n → Fin n → Prop) : Sound g done awaited (start n) := by
  have hget {α : Type} (x : α) (i : Fin n) : (Vector.replicate n x).get i = x :=
    Vector.getElem_replicate i.isLt
  have hentered : ∀ i, ¬(start n).Entered i := by simp [Entered, start, hget]
  exact
    { onStack_iff := by simp [start, hget]
      entered := by simp [start]
      not_done := fun i hi ↦ absurd hi (hentered i)
      time_lt := fun i hi ↦ absurd hi (hentered i)
      pairwise_stack := List.Pairwise.nil
      pairwise_path := List.Pairwise.nil
      path_subset := List.nil_subset _
      leads := by simp [start]
      low_le := by simp [start]
      low_lt := by simp [start]
      exists_low := by simp [start]
      entered_of_edge := fun i j hi ↦ absurd hi (hentered i)
      low_bound := by simp [start]
      closed := fun i j hi ↦ absurd hi.1 (hentered i)
      cyclic_iff := fun i ↦ by
        rw [iff_false_right fun h ↦ hentered i h.1.1]
        simp [start, hget] }

/-- On the stack, a number belongs to one position. -/
theorem Tidy.eq_of_time_eq (h : Tidy done w) (hi : i ∈ w.stack) (hj : j ∈ w.stack)
    (htime : w.time i = w.time j) : i = j := by
  have hnodup : (w.stack.map w.time).Nodup :=
    List.pairwise_map.2 (h.pairwise_stack.imp fun hlt ↦ (Nat.ne_of_lt hlt).symm)
  exact List.inj_on_of_nodup_map hnodup hi hj htime

/-- Only the positions of the path matter, and not what is left to be followed from them. -/
theorem Sound.with_frames (h : Sound g done awaited w) {frames : List (Frame n)}
    (hframes : frames.map Frame.position = w.path) :
    Sound g done awaited { w with frames } := by
  have hpath : path { w with frames } = w.path := hframes
  exact
    { onStack_iff := h.onStack_iff
      entered := h.entered
      not_done := h.not_done
      time_lt := h.time_lt
      pairwise_stack := h.pairwise_stack
      pairwise_path := hpath ▸ h.pairwise_path
      path_subset := hpath ▸ h.path_subset
      leads := hpath ▸ h.leads
      low_le := h.low_le
      low_lt := hpath ▸ h.low_lt
      exists_low := h.exists_low
      entered_of_edge := h.entered_of_edge
      low_bound := hpath ▸ h.low_bound
      closed := h.closed
      cyclic_iff := h.cyclic_iff }

/-! ### Entering a position -/

/-- Entering a node enters that one only. -/
theorem entered_enter_iff : (w.enter g i).Entered j ↔ j = i ∨ w.Entered j := by
  show (Option.isSome ((w.number.set i (some w.next) i.isLt).get j)) = true ↔ _
  rw [Graph.get_set]
  split
  · next hij => simp [hij]
  · next hij => simp [Entered, Ne.symm hij]

@[simp] theorem time_enter_self : (w.enter g i).time i = w.next := by
  show Option.getD ((w.number.set i (some w.next) i.isLt).get i) 0 = w.next
  rw [Graph.get_set, if_pos rfl]
  rfl

/-- Entering a node leaves the times of the others. -/
theorem time_enter_of_entered (hi : ¬w.Entered i) (hj : w.Entered j) :
    (w.enter g i).time j = w.time j := by
  have hne : i ≠ j := by
    rintro rfl
    exact hi hj
  show Option.getD ((w.number.set i (some w.next) i.isLt).get j) 0 = w.time j
  rw [Graph.get_set, if_neg hne]
  rfl

/-- Entering a new node keeps the walk tidy. -/
theorem Tidy.enter (h : Tidy done w) (hi : ¬w.Entered i) (halive : done.get i = false) :
    Tidy done (w.enter g i) := by
  have htime : ∀ j ∈ w.stack, (w.enter g i).time j = w.time j :=
    fun j hj ↦ time_enter_of_entered hi (h.entered j hj)
  have hbelow : ∀ j ∈ w.stack, (w.enter g i).time j < (w.enter g i).time i := by
    intro j hj
    rw [htime j hj, time_enter_self]
    exact h.time_lt j (h.entered j hj)
  exact
    { onStack_iff := fun j ↦ by
        show (w.onStack.set i true i.isLt).get j = true ↔ j ∈ i :: w.stack
        rw [Graph.get_set, List.mem_cons]
        split
        · next hij => simp [hij]
        · next hij => simp [h.onStack_iff, Ne.symm hij]
      entered := fun j hj ↦ by
        rw [entered_enter_iff]
        exact (List.mem_cons.1 hj).imp_right (h.entered j)
      not_done := fun j hj ↦ by
        rcases entered_enter_iff.1 hj with rfl | hj
        · exact halive
        · exact h.not_done j hj
      time_lt := fun j hj ↦ by
        show _ < w.next + 1
        rcases entered_enter_iff.1 hj with rfl | hj
        · rw [time_enter_self]
          omega
        · rw [time_enter_of_entered hi hj]
          have := h.time_lt j hj
          omega
      pairwise_stack := by
        refine List.pairwise_cons.2 ⟨hbelow, h.pairwise_stack.imp_of_mem fun ha hb hlt ↦ ?_⟩
        rwa [htime _ ha, htime _ hb]
      pairwise_path := by
        refine List.pairwise_cons.2 ⟨fun p hp ↦ hbelow p (h.path_subset hp), ?_⟩
        refine h.pairwise_path.imp_of_mem fun ha hb hlt ↦ ?_
        rwa [htime _ (h.path_subset ha), htime _ (h.path_subset hb)]
      path_subset := List.cons_subset_cons i h.path_subset }

/-- Entering a node closes none. -/
theorem closed_enter_iff (hi : ¬w.Entered i) : (w.enter g i).Closed j ↔ w.Closed j := by
  show (w.enter g i).Entered j ∧ j ∉ i :: w.stack ↔ w.Entered j ∧ j ∉ w.stack
  rw [entered_enter_iff, List.mem_cons]
  constructor
  · rintro ⟨rfl | hj, hnot⟩
    · exact absurd (.inl rfl) hnot
    · exact ⟨hj, fun hmem ↦ hnot (.inr hmem)⟩
  · rintro ⟨hj, hnot⟩
    refine ⟨.inr hj, ?_⟩
    rintro (rfl | hmem)
    · exact hi hj
    · exact hnot hmem

theorem low_enter_self : (w.enter g i).low.get i = w.next := by
  show (w.low.set i w.next i.isLt).get i = w.next
  rw [Graph.get_set, if_pos rfl]

theorem low_enter_of_ne (hne : j ≠ i) : (w.enter g i).low.get j = w.low.get j := by
  show (w.low.set i w.next i.isLt).get j = w.low.get j
  rw [Graph.get_set, if_neg hne.symm]

/-- What is on the stack keeps its number and its low link, which are below those of the position
that is entered. -/
theorem Tidy.enter_of_mem (h : Tidy done w) (hi : ¬w.Entered i) (hj : j ∈ w.stack) :
    j ≠ i ∧ (w.enter g i).time j = w.time j ∧ (w.enter g i).low.get j = w.low.get j ∧
      w.time j < w.next := by
  have hentered := h.entered j hj
  have hne : j ≠ i := by
    rintro rfl
    exact hi hentered
  exact ⟨hne, time_enter_of_entered hi hentered, low_enter_of_ne hne, h.time_lt j hentered⟩

/-- Entering a new node keeps the links, if the path leads to it. -/
theorem Linked.enter (h : Linked g done awaited w) (htidy : Tidy done w) (hi : ¬w.Entered i)
    (hleads : ∀ p ∈ w.path, Leads g done p i) (hfrom : ∀ b, g.Edge i b → awaited' i b)
    (hto : ∀ a b, awaited a b → b = i ∨ awaited' a b) :
    Linked g done awaited' (w.enter g i) := by
  have hpath : (w.enter g i).path = i :: w.path := rfl
  have hstack : (w.enter g i).stack = i :: w.stack := rfl
  refine ⟨?leads, ?low_le, ?low_lt, ?exists_low, ?entered_of_edge, ?low_bound⟩
  case leads =>
    rw [hpath, hstack]
    intro p hp' a ha' hle
    rcases List.mem_cons.1 ha' with rfl | ha
    · rcases List.mem_cons.1 hp' with rfl | hp
      · exact .refl
      · exact hleads p hp
    · obtain ⟨-, htime, -, hlt⟩ := htidy.enter_of_mem (g := g) hi ha
      rcases List.mem_cons.1 hp' with rfl | hp
      · rw [time_enter_self] at hle
        omega
      · obtain ⟨-, hptime, -⟩ := htidy.enter_of_mem (g := g) hi (htidy.path_subset hp)
        exact h.leads p hp a ha (by omega)
  case low_le =>
    rw [hstack]
    intro a ha'
    rcases List.mem_cons.1 ha' with rfl | ha
    · rw [low_enter_self, time_enter_self]
    · obtain ⟨-, htime, hlow, -⟩ := htidy.enter_of_mem (g := g) hi ha
      rw [hlow, htime]
      exact h.low_le a ha
  case low_lt =>
    rw [hpath, hstack]
    intro a ha' hnot
    rw [List.mem_cons, not_or] at hnot
    have ha := (List.mem_cons.1 ha').resolve_left hnot.1
    obtain ⟨-, htime, hlow, -⟩ := htidy.enter_of_mem (g := g) hi ha
    rw [hlow, htime]
    exact h.low_lt a ha hnot.2
  case exists_low =>
    rw [hstack]
    intro a ha'
    rcases List.mem_cons.1 ha' with rfl | ha
    · exact ⟨a, List.mem_cons_self, by rw [low_enter_self, time_enter_self], .refl⟩
    · obtain ⟨b, hb, hbtime, hab⟩ := h.exists_low a ha
      obtain ⟨-, -, hlow, -⟩ := htidy.enter_of_mem (g := g) hi ha
      obtain ⟨-, htime, -⟩ := htidy.enter_of_mem (g := g) hi hb
      exact ⟨b, List.mem_cons_of_mem i hb, by omega, hab⟩
  case entered_of_edge =>
    intro a b ha hab hb
    rw [entered_enter_iff]
    rcases entered_enter_iff.1 ha with rfl | ha
    · exact .inl (hfrom b hab)
    · rcases h.entered_of_edge a b ha hab hb with hwait | hentered
      · exact (hto a b hwait).symm.imp_right .inl
      · exact .inr (.inr hentered)
  case low_bound =>
    rw [hpath, hstack]
    intro p hp' a ha' hle b hb' hab
    rcases List.mem_cons.1 ha' with rfl | ha
    · exact .inl (hfrom b hab)
    obtain ⟨-, hatime, -, halt⟩ := htidy.enter_of_mem (g := g) hi ha
    rcases List.mem_cons.1 hp' with rfl | hp
    · rw [time_enter_self] at hle
      omega
    obtain ⟨-, hptime, hplow, hplt⟩ := htidy.enter_of_mem (g := g) hi (htidy.path_subset hp)
    rcases List.mem_cons.1 hb' with rfl | hb
    · -- whatever leads to the new position, its number is above all low links
      have hle := h.low_le p (htidy.path_subset hp)
      refine .inr ⟨p, List.mem_cons_of_mem b hp, le_refl _, ?_⟩
      rw [hplow, time_enter_self]
      omega
    · obtain ⟨hne, hbtime, -⟩ := htidy.enter_of_mem (g := g) hi hb
      rcases h.low_bound p hp a ha (by omega) b hb hab with hwait | ⟨q, hq, hpq, hqb⟩
      · exact .inl ((hto a b hwait).resolve_left hne)
      · obtain ⟨-, hqtime, hqlow, -⟩ := htidy.enter_of_mem (g := g) hi (htidy.path_subset hq)
        exact .inr ⟨q, List.mem_cons_of_mem i hq, by omega, by omega⟩

/-- **Entering a position.** It is reached from the path. Afterwards everything that it depends on
is awaited, and edges to it need not be. -/
theorem Sound.enter (h : Sound g done awaited w) (hi : ¬w.Entered i) (halive : done.get i = false)
    (hleads : ∀ p ∈ w.path, Leads g done p i) (hfrom : ∀ b, g.Edge i b → awaited' i b)
    (hto : ∀ a b, awaited a b → b = i ∨ awaited' a b) :
    Sound g done awaited' (w.enter g i) where
  toTidy := h.toTidy.enter hi halive
  toLinked := h.toLinked.enter h.toTidy hi hleads hfrom hto
  closed a b ha hab hb := by
    rw [closed_enter_iff hi] at ha ⊢
    exact h.closed a b ha hab hb
  cyclic_iff a := by
    rw [closed_enter_iff hi]
    exact h.cyclic_iff a

/-! ### Lowering a low link -/

theorem low_lower_self (bound : ℕ) :
    (w.lower i bound).low.get i = min (w.low.get i) bound := by
  show (w.low.set i _ i.isLt).get i = _
  rw [Graph.get_set, if_pos rfl]

theorem low_lower_of_ne (bound : ℕ) (hne : j ≠ i) : (w.lower i bound).low.get j = w.low.get j := by
  show (w.low.set i _ i.isLt).get j = _
  rw [Graph.get_set, if_neg hne.symm]

/-- Lowering never raises a bound. -/
theorem low_lower_le (bound : ℕ) (j : Fin n) : (w.lower i bound).low.get j ≤ w.low.get j := by
  by_cases hji : j = i
  · rw [hji, low_lower_self]
    exact min_le_left _ _
  · rw [low_lower_of_ne bound hji]

/-- The low link of a position on the path may fall to the number of anything on the stack that the
position leads to. -/
theorem Sound.lower (h : Sound g done awaited w) (hi : i ∈ w.path) (hj : j ∈ w.stack)
    (hij : Leads g done i j) : Sound g done awaited (w.lower i (w.time j)) where
  onStack_iff := h.onStack_iff
  entered := h.entered
  not_done := h.not_done
  time_lt := h.time_lt
  pairwise_stack := h.pairwise_stack
  pairwise_path := h.pairwise_path
  path_subset := h.path_subset
  leads := h.leads
  low_le a ha := (low_lower_le _ a).trans (h.low_le a ha)
  low_lt a ha hnot := (low_lower_le _ a).trans_lt (h.low_lt a ha hnot)
  exists_low a ha := by
    by_cases hai : a = i
    · subst hai
      rw [low_lower_self]
      rcases min_choice (w.low.get a) (w.time j) with hmin | hmin
      · rw [hmin]
        exact h.exists_low a ha
      · rw [hmin]
        exact ⟨j, hj, rfl, hij⟩
    · rw [low_lower_of_ne _ hai]
      exact h.exists_low a ha
  entered_of_edge := h.entered_of_edge
  low_bound p hp a ha hle b hb hab := by
    refine (h.low_bound p hp a ha hle b hb hab).imp_right ?_
    rintro ⟨q, hq, hpq, hqb⟩
    exact ⟨q, hq, hpq, (low_lower_le _ q).trans hqb⟩
  closed := h.closed
  cyclic_iff := h.cyclic_iff

/-- **An edge from the current position has been followed** once its target has been entered and, if
it is on the stack, is accounted for by the low link. -/
theorem Sound.settle {v target : Fin n} (h : Sound g done awaited w) (hv : v ∈ w.path)
    (htop : ∀ p ∈ w.path, w.time p ≤ w.time v)
    (hentered : done.get target = false → w.Entered target)
    (hlow : target ∈ w.stack → w.low.get v ≤ w.time target)
    (hawaited : ∀ a b, awaited a b → (a = v ∧ b = target) ∨ awaited' a b) :
    Sound g done awaited' w where
  toTidy := h.toTidy
  leads := h.leads
  low_le := h.low_le
  low_lt := h.low_lt
  exists_low := h.exists_low
  entered_of_edge a b ha hab hb := by
    rcases h.entered_of_edge a b ha hab hb with hwait | hb'
    · rcases hawaited a b hwait with ⟨-, rfl⟩ | hwait
      · exact .inr (hentered hb)
      · exact .inl hwait
    · exact .inr hb'
  low_bound p hp a ha hle b hb hab := by
    rcases h.low_bound p hp a ha hle b hb hab with hwait | hbound
    · rcases hawaited a b hwait with ⟨-, rfl⟩ | hwait
      · exact .inr ⟨v, hv, htop p hp, hlow hb⟩
      · exact .inl hwait
    · exact .inr hbound
  toCompleted := h.toCompleted

end Walk

end SchemaCodec
