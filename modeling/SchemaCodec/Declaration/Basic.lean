import SchemaCodec.TypeExpr.Basic

/-!
# Declarations

A declaration gives a type a name. Lists of declarations may repeat a name; a name then stands for
the last declaration that has it.
-/

namespace SchemaCodec

/-- A named type. -/
structure Declaration where
  name : String
  type : TypeExpr

namespace Declaration

instance : Inhabited Declaration :=
  ⟨⟨"", default⟩⟩

/-- The position of the declaration that a name stands for. -/
def position? (name : String) : (ds : List Declaration) → Option (Fin ds.length)
  | [] => none
  | d :: rest =>
    match position? name rest with
    | some i => some i.succ
    | none => if d.name = name then some ⟨0, Nat.succ_pos _⟩ else none

/-- The type that a name stands for. -/
def typeOf? (ds : List Declaration) (name : String) : Option TypeExpr :=
  (position? name ds).map fun i ↦ (ds.get i).type

theorem name_of_position? {name : String} {ds : List Declaration} {i : Fin ds.length}
    (h : position? name ds = some i) : (ds.get i).name = name := by
  induction ds with
  | nil => simp [position?] at h
  | cons d rest ih =>
    simp only [position?] at h
    split at h
    · next j hj =>
      obtain rfl : j.succ = i := by simpa using h
      simpa using ih hj
    · split at h
      · next hd =>
        obtain rfl : ⟨0, Nat.succ_pos _⟩ = i := by simpa using h
        simpa using hd
      · simp at h

/-- A name with a type is the name of some declaration. -/
theorem exists_mem_of_typeOf? {name : String} {ds : List Declaration} {t : TypeExpr}
    (h : typeOf? ds name = some t) : ∃ d ∈ ds, d.name = name := by
  obtain ⟨i, hi, -⟩ := Option.map_eq_some_iff.1 h
  exact ⟨ds.get i, ds.get_mem i, name_of_position? hi⟩

end Declaration

end SchemaCodec
