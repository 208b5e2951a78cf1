import SchemaCodec.Declaration.Basic
import SchemaCodec.Dependency.Cycles

/-!
# Dependency order

Declarations are emitted so that each comes after those it names, the earliest possible one first.
The state of the process counts, for every position, the dependencies that are not yet emitted, and
keeps the positions without any as a queue in order. When the queue runs empty before the end, every
remaining position waits for another, and the earliest one on a cycle is emitted in its place.
-/

namespace SchemaCodec

/-- How far the emission of `n` positions has come. -/
structure Progress (n : Nat) where
  /-- The emitted positions, the last one first. -/
  emitted : List (Fin n)
  /-- Which positions are emitted. -/
  done : Vector Bool n
  /-- How many dependencies of each position are not yet emitted. -/
  pending : Vector Nat n
  /-- The positions that are not emitted and wait for nothing, in order. -/
  ready : List (Fin n)

namespace Progress

variable {n : Nat}

/-- Inserts a position into a list in increasing order. -/
def enqueue (i : Fin n) : List (Fin n) → List (Fin n)
  | [] => [i]
  | j :: rest => if i < j then i :: j :: rest else j :: enqueue i rest

/-- Nothing is emitted yet. -/
def start (g : Graph n) : Progress n where
  emitted := []
  done := Vector.replicate n false
  pending := Vector.ofFn fun i ↦ (g.dependencies i).length
  ready := (List.finRange n).filter fun i ↦ (g.dependencies i).isEmpty

/-- One dependency of `i` has been emitted. -/
def release (p : Progress n) (i : Fin n) : Progress n :=
  let left := p.pending.get i - 1
  { p with
    pending := p.pending.set i left i.isLt
    ready := if left = 0 ∧ p.done.get i = false then enqueue i p.ready else p.ready }

/-- Marks a position as emitted. -/
def mark (p : Progress n) (i : Fin n) : Progress n :=
  { p with emitted := i :: p.emitted, done := p.done.set i true i.isLt }

/-- Emits a position and releases those that depend on it. -/
def emit (g : Graph n) (p : Progress n) (i : Fin n) : Progress n :=
  (g.dependents i).foldl release (p.mark i)

/-- The first position on a cycle of positions not yet emitted. -/
def cycleMember? (g : Graph n) (p : Progress n) : Option (Fin n) :=
  let cyclic := g.cycleMembers p.done
  (List.finRange n).find? fun i ↦ !p.done.get i && cyclic.get i

/-- Where to go on when nothing is ready: at the first position on a cycle or, if there were none,
at the first position not yet emitted. -/
def breakingPoint? (g : Graph n) (p : Progress n) : Option (Fin n) :=
  (cycleMember? g p).or ((List.finRange n).find? fun i ↦ !p.done.get i)

/-- Takes the next position: the first one from the queue, or else one where a cycle is broken. -/
def next? (g : Graph n) (p : Progress n) : Option (Fin n × Progress n) :=
  match p.ready with
  | i :: rest => some (i, { p with ready := rest })
  | [] => (breakingPoint? g p).map fun i ↦ (i, p)

/-- Takes the next position and emits it, unless that was done before; `none` if there is none. -/
def step? (g : Graph n) (p : Progress n) : Option (Progress n) :=
  (next? g p).map fun (i, p) ↦ if p.done.get i then p else emit g p i

/-! ### Termination -/

/-- How many positions are not emitted. -/
def remaining (p : Progress n) : Nat :=
  p.done.count false

@[simp] theorem done_foldl_release {p : Progress n} {js : List (Fin n)} :
    (js.foldl release p).done = p.done := by
  induction js generalizing p with
  | nil => rfl
  | cons j js ih => exact ih

theorem remaining_emit_lt (g : Graph n) {p : Progress n} {i : Fin n} (h : p.done.get i = false) :
    (emit g p i).remaining < p.remaining := by
  have hpos : 0 < p.done.count false := Vector.count_pos_iff.2 (h ▸ Vector.getElem_mem i.isLt)
  have hi : p.done[i.val] = false := h
  rw [remaining, emit, done_foldl_release]
  show (p.done.set i true i.isLt).count false < p.done.count false
  rw [Vector.count_set, hi]
  exact Nat.sub_lt hpos Nat.one_pos

/-- A search for a position where to go on finds one that is not emitted. -/
theorem done_of_breakingPoint? {g : Graph n} {p : Progress n} {i : Fin n}
    (h : breakingPoint? g p = some i) : p.done.get i = false := by
  rw [breakingPoint?, Option.or_eq_some_iff] at h
  rcases h with h | ⟨-, h⟩
  · have htest := List.find?_some h
    simpa using (Bool.and_eq_true_iff.1 htest).1
  · simpa using List.find?_some h

/-- A step emits a position, or else it only shortens the queue. -/
theorem step?_decreases {g : Graph n} {p p' : Progress n} (h : step? g p = some p') :
    p'.remaining < p.remaining ∨
      p'.remaining = p.remaining ∧ p'.ready.length < p.ready.length := by
  rw [step?, Option.map_eq_some_iff] at h
  obtain ⟨⟨i, q⟩, hnext, rfl⟩ := h
  rw [next?] at hnext
  split at hnext
  · next rest hready =>
    obtain ⟨rfl, rfl⟩ := Prod.mk.inj (Option.some.inj hnext)
    simp only
    split
    · exact .inr ⟨rfl, by simp [hready]⟩
    · next hdone => exact .inl (remaining_emit_lt g (Bool.eq_false_iff.2 hdone))
  · obtain ⟨j, hj, heq⟩ := Option.map_eq_some_iff.1 hnext
    obtain ⟨rfl, rfl⟩ := Prod.mk.inj heq
    have hdone := done_of_breakingPoint? hj
    simp only [hdone, Bool.false_eq_true, if_false]
    exact .inl (remaining_emit_lt g hdone)

/-- Takes steps until everything is emitted. -/
def run (g : Graph n) (p : Progress n) : Progress n :=
  if p.emitted.length < n then
    match h : step? g p with
    | some p' =>
      have := step?_decreases h
      run g p'
    | none => p
  else p
termination_by (p.remaining, p.ready.length)
decreasing_by
  rcases this with hlt | ⟨heq, hlt⟩
  · exact Prod.Lex.left _ _ hlt
  · rw [heq]
    exact Prod.Lex.right _ hlt

end Progress

/-- All positions of a graph in the order of their emission. -/
def Graph.order {n : Nat} (g : Graph n) : List (Fin n) :=
  (Progress.run g (Progress.start g)).emitted.reverse

namespace Declaration

/-- The positions of the other declarations that the one at `i` names. -/
def dependencies (ds : List Declaration) (i : Fin ds.length) : List (Fin ds.length) :=
  ((ds.get i).type.references.filterMap fun name ↦ position? name ds).filter (· != i)

/-- The dependency graph of declarations; names that no declaration has impose no order. -/
def graph (ds : List Declaration) : Graph ds.length :=
  ⟨Vector.ofFn (dependencies ds)⟩

/-- The declarations in dependency order. -/
def sort (ds : List Declaration) : List Declaration :=
  (graph ds).order.map ds.get

end Declaration

end SchemaCodec
