/-!
# Dependency graphs

A graph on the positions below `n` lists the positions that each one depends on. A position may be
listed more than once, and among its own dependencies.
-/

namespace SchemaCodec

/-- The positions that every position below `n` depends on. -/
structure Graph (n : Nat) where
  targets : Vector (List (Fin n)) n

namespace Graph

variable {n : Nat}

/-- The positions that `i` depends on. -/
def dependencies (g : Graph n) (i : Fin n) : List (Fin n) :=
  g.targets.get i

/-- The positions that depend on `i`, in order. -/
def dependents (g : Graph n) (i : Fin n) : List (Fin n) :=
  (List.finRange n).filter fun j ↦ (g.dependencies j).contains i

end Graph

end SchemaCodec
