/-!
# Ordered entries

A list of key–value pairs in which every key has a fixed place: writing a key that is already
present replaces its value where it stands, and a new key goes to the end. Reading takes the first
pair with the key, so on lists built by `insert` there is at most one candidate.
-/

namespace SchemaCodec

/-- Key–value pairs in a visible order. -/
abbrev Entries (κ : Type) (α : Type) := List (κ × α)

namespace Entries

variable {κ α : Type} [DecidableEq κ]

/-- The value stored under `key`. -/
def get? (key : κ) : Entries κ α → Option α
  | [] => none
  | (k, a) :: rest => if k = key then some a else get? key rest

/-- Stores `value` under `key`, in the key's own place if it has one and at the end otherwise. -/
def insert (key : κ) (value : α) : Entries κ α → Entries κ α
  | [] => [(key, value)]
  | (k, a) :: rest => if k = key then (key, value) :: rest else (k, a) :: insert key value rest

/-- Stores `value` under `key`, in the key's own place if it has one and at the front otherwise. -/
def insertFront (key : κ) (value : α) (entries : Entries κ α) : Entries κ α :=
  if (get? key entries).isSome then insert key value entries else (key, value) :: entries

/-- The keys in order. -/
def keys (entries : Entries κ α) : List κ :=
  entries.map Prod.fst

omit [DecidableEq κ] in
@[simp] theorem keys_nil : keys ([] : Entries κ α) = [] :=
  rfl

omit [DecidableEq κ] in
@[simp] theorem keys_cons (p : κ × α) (entries : Entries κ α) :
    keys (p :: entries) = p.1 :: keys entries :=
  rfl

theorem mem_of_get?_eq_some {key : κ} {value : α} {entries : Entries κ α}
    (h : get? key entries = some value) : (key, value) ∈ entries := by
  induction entries with
  | nil => simp [get?] at h
  | cons p rest ih =>
    obtain ⟨k, a⟩ := p
    by_cases hk : k = key
    · simp_all [get?]
    · simp only [get?, hk, if_false] at h
      exact List.mem_cons_of_mem _ (ih h)

end Entries

end SchemaCodec
