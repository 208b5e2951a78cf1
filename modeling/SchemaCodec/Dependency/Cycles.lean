import SchemaCodec.Dependency.Graph

/-!
# Positions on cycles

Two positions lie on a common cycle if each can be reached from the other, that is, if they share a
strongly connected component. One walk through the graph finds all components. It numbers the
positions as it enters them and keeps them on a stack until their component is complete. The low
link of a position is the number of a position on the stack that it is known to reach. A position
whose low link is still its own number when the walk leaves it is where the walk first met its
component, and the component is what has been put on the stack since.

The walk keeps its way back as a list of frames, so that no recursion is as deep as the graph.
Positions that are done are passed over as if they were not there.
-/

namespace SchemaCodec

/-- A position that has been entered and not left. -/
structure Frame (n : Nat) where
  position : Fin n
  /-- The dependencies that are still to be followed. -/
  remaining : List (Fin n)

/-- How far a walk through a graph has come. -/
structure Walk (n : Nat) where
  /-- The way back from the current position to the one where the walk started. -/
  frames : List (Frame n)
  /-- The numbers of the positions that have been entered. -/
  number : Vector (Option Nat) n
  /-- The low links of the positions that have been entered. -/
  low : Vector Nat n
  /-- The number of the position to be entered next. -/
  next : Nat
  /-- The positions whose components are not complete, the last one entered first. -/
  stack : List (Fin n)
  /-- Which positions are on the stack. -/
  onStack : Vector Bool n
  /-- The positions whose components are complete and have at least two members. -/
  cyclic : Vector Bool n

namespace Walk

variable {n : Nat}

/-- Nothing is entered yet. -/
def start (n : Nat) : Walk n where
  frames := []
  number := Vector.replicate n none
  low := Vector.replicate n 0
  next := 0
  stack := []
  onStack := Vector.replicate n false
  cyclic := Vector.replicate n false

/-- Enters a position. -/
def enter (g : Graph n) (w : Walk n) (i : Fin n) : Walk n :=
  { w with
    frames := ⟨i, g.dependencies i⟩ :: w.frames
    number := w.number.set i (some w.next) i.isLt
    low := w.low.set i w.next i.isLt
    next := w.next + 1
    stack := i :: w.stack
    onStack := w.onStack.set i true i.isLt }

/-- Makes the low link of a position at most `bound`. -/
def lower (w : Walk n) (i : Fin n) (bound : Nat) : Walk n :=
  { w with low := w.low.set i (min (w.low.get i) bound) i.isLt }

/-- Follows a dependency of the current position. -/
def follow (g : Graph n) (done : Vector Bool n) (w : Walk n) (i dependency : Fin n) : Walk n :=
  if done.get dependency then w
  else
    match w.number.get dependency with
    | none => w.enter g dependency
    | some k => if w.onStack.get dependency then w.lower i k else w

/-- Writes one value at several places. -/
def setAll {α : Type} (xs : Vector α n) (places : List (Fin n)) (x : α) : Vector α n :=
  places.foldl (fun xs (i : Fin n) ↦ xs.set i x i.isLt) xs

/-- Completes a component: `i` and all that has been put on the stack since. -/
def complete (w : Walk n) (i : Fin n) : Walk n :=
  let size := w.stack.idxOf i + 1
  let component := w.stack.take size
  { w with
    stack := w.stack.drop size
    onStack := setAll w.onStack component false
    cyclic := if 1 < component.length then setAll w.cyclic component true else w.cyclic }

/-- Hands the low link of a position on to the one it was entered from. -/
def inherit (w : Walk n) (i : Fin n) : Walk n :=
  match w.frames with
  | [] => w
  | parent :: _ => w.lower parent.position (w.low.get i)

/-- Completes the component of a position that has been left, if the walk first met it there. -/
def close (w : Walk n) (i : Fin n) : Walk n :=
  if w.number.get i = some (w.low.get i) then w.complete i else w

/-- Follows the next dependency of the current position, or leaves it if there is none. -/
def step (g : Graph n) (done : Vector Bool n) (w : Walk n) : Walk n :=
  match w.frames with
  | [] => w
  | ⟨i, []⟩ :: frames => ({ w with frames }.inherit i).close i
  | ⟨i, dependency :: remaining⟩ :: frames =>
    { w with frames := ⟨i, remaining⟩ :: frames }.follow g done i dependency

/-! ### Termination -/

/-- How many positions have not been entered. -/
def unentered (w : Walk n) : Nat :=
  w.number.count none

/-- How many dependencies and positions the walk has still to deal with on its way back. -/
def outstanding (w : Walk n) : Nat :=
  (w.frames.flatMap Frame.remaining).length + w.frames.length

theorem unentered_enter_lt (g : Graph n) {w : Walk n} {i : Fin n} (h : w.number.get i = none) :
    (w.enter g i).unentered < w.unentered := by
  have hpos : 0 < w.number.count none :=
    Vector.count_pos_iff.2 (h ▸ Vector.getElem_mem i.isLt)
  have hi : w.number[i.val] = none := h
  show (w.number.set i (some w.next) i.isLt).count none < w.number.count none
  rw [Vector.count_set, hi]
  exact Nat.sub_lt hpos Nat.one_pos

/-- Leaving a position changes neither the numbers nor the way back. -/
theorem close_inherit (w : Walk n) (i : Fin n) :
    ((w.inherit i).close i).frames = w.frames ∧ ((w.inherit i).close i).number = w.number := by
  have hclose : ∀ w : Walk n, (w.close i).frames = w.frames ∧ (w.close i).number = w.number := by
    intro w
    unfold close
    split <;> exact ⟨rfl, rfl⟩
  rw [(hclose _).1, (hclose _).2]
  unfold inherit
  split <;> exact ⟨rfl, rfl⟩

/-- A step enters a position, or else there is less to deal with afterwards. -/
theorem step_decreases (g : Graph n) (done : Vector Bool n) {w : Walk n} (h : w.frames ≠ []) :
    (step g done w).unentered < w.unentered ∨
      (step g done w).unentered = w.unentered ∧ (step g done w).outstanding < w.outstanding := by
  rcases w with ⟨frames, number, low, next, stack, onStack, cyclic⟩
  rcases frames with - | ⟨⟨i, - | ⟨dependency, remaining⟩⟩, frames⟩
  · exact absurd rfl h
  · refine .inr ?_
    obtain ⟨hframes, hnumber⟩ := close_inherit ⟨frames, number, low, next, stack, onStack, cyclic⟩ i
    simp only [step, unentered, outstanding, hframes, hnumber, List.flatMap_cons,
      List.nil_append, List.length_cons, true_and]
    omega
  · simp only [step, follow]
    split
    · exact .inr ⟨rfl, by simp [outstanding]⟩
    · split
      · next hnone => exact .inl (unentered_enter_lt g hnone)
      · refine .inr ?_
        split <;> exact ⟨rfl, by simp [outstanding, lower]⟩

/-- Takes steps until the way back is at its end. -/
def run (g : Graph n) (done : Vector Bool n) (w : Walk n) : Walk n :=
  if w.frames = [] then w else run g done (step g done w)
termination_by (w.unentered, w.outstanding)
decreasing_by
  rcases step_decreases g done ‹w.frames ≠ []› with hlt | ⟨heq, hlt⟩
  · exact Prod.Lex.left _ _ hlt
  · rw [heq]
    exact Prod.Lex.right _ hlt

/-- Walks on from a position, unless it is done or has been entered. -/
def visit (g : Graph n) (done : Vector Bool n) (w : Walk n) (root : Fin n) : Walk n :=
  if done.get root || (w.number.get root).isSome then w else run g done (w.enter g root)

end Walk

/-- Marks the positions that lie on a cycle of at least two positions that are not done. -/
def Graph.cycleMembers {n : Nat} (g : Graph n) (done : Vector Bool n) : Vector Bool n :=
  ((List.finRange n).foldl (Walk.visit g done) (Walk.start n)).cyclic

end SchemaCodec
