/-!
# What can be read of a text

A reader goes through its text from the left and stops at the first fault. A `Reading` holds the
items it delivered before that and whether it came to the end, so that a consumer which decides
early may do so although the text is faulty further on.
-/

namespace SchemaCodec

/-- The items read before the first fault; `complete` says that there was none. -/
structure Reading (α : Type) where
  items : List α
  complete : Bool

namespace Reading

variable {α : Type}

/-- Nothing left to read. -/
def done : Reading α := ⟨[], true⟩

/-- A fault right at the start. -/
def fault : Reading α := ⟨[], false⟩

/-- Puts an item in front. -/
def cons (a : α) (r : Reading α) : Reading α :=
  ⟨a :: r.items, r.complete⟩

/-- Puts several items in front. -/
def append (as : List α) (r : Reading α) : Reading α :=
  ⟨as ++ r.items, r.complete⟩

@[simp] theorem append_append (r : Reading α) (as bs : List α) :
    (r.append bs).append as = r.append (as ++ bs) := by
  simp [append]

end Reading

/-- A step of a tree written out in order: a leaf, or the start or end of a list or of a mapping. In
a mapping, keys and values alternate. -/
inductive Event (σ : Type) where
  | leaf (value : σ)
  | openList
  | closeList
  | openMap
  | closeMap
deriving DecidableEq

/-- A step down into such a tree: to the value of a key or to an item of a list. -/
inductive Step where
  | key (name : String)
  | index (i : Nat)
deriving DecidableEq

end SchemaCodec
