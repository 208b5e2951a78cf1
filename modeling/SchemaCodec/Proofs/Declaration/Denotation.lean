import Mathlib.Data.List.Nodup
import Mathlib.Order.Fin.Basic
import SchemaCodec.Declaration.Basic

/-!
# What a name denotes

In a list of declarations a name *denotes* the last declaration that has it. `Denotes` says so
without a search, and the two look-ups are exact for it: `position?` finds the denoted position
(`position?_eq_some_iff`) and `typeOf?` the type found there (`typeOf?_eq_some_iff`), both failing
only on a name that nothing declares.

With distinct names there is nothing to choose: a name denotes whatever declares it, so the look-up
of types depends on the list as a set (`typeOf?_eq_of_perm`).
-/

namespace SchemaCodec.Declaration

/-- The declaration at `i` is the last one called `name`. -/
structure Denotes (ds : List Declaration) (name : String) (i : Fin ds.length) : Prop where
  name_eq : (ds.get i).name = name
  last : ∀ j, i < j → (ds.get j).name ≠ name

variable {ds : List Declaration} {name : String}

/-- A name denotes one declaration at most: the first one that has it. -/
theorem Denotes.unique {i j : Fin ds.length} (hi : Denotes ds name i) (hj : Denotes ds name j) :
    i = j := by
  rcases lt_trichotomy i j with h | h | h
  · exact absurd hj.name_eq (hi.last j h)
  · exact h
  · exact absurd hi.name_eq (hj.last i h)

/-- A position behind the head denotes a name exactly when it does so in the tail. -/
theorem denotes_cons_succ_iff {d : Declaration} {i : Fin ds.length} :
    Denotes (d :: ds) name i.succ ↔ Denotes ds name i := by
  constructor
  · intro h
    refine ⟨by simpa using h.name_eq, fun j hj ↦ ?_⟩
    simpa using h.last j.succ (Fin.succ_lt_succ_iff.2 hj)
  · intro h
    refine ⟨by simpa using h.name_eq, fun j hj ↦ ?_⟩
    -- nothing behind a successor is the head
    obtain ⟨k, rfl⟩ := Fin.exists_succ_eq.2 (Fin.pos_iff_ne_zero.1 (i.succ_pos.trans hj))
    simpa using h.last k (Fin.succ_lt_succ_iff.1 hj)

/-- The head is denoted when it has the name and nothing in the tail has. -/
theorem denotes_cons_zero_iff {d : Declaration} :
    Denotes (d :: ds) name ⟨0, Nat.succ_pos _⟩ ↔ d.name = name ∧ ∀ e ∈ ds, e.name ≠ name := by
  constructor
  · intro h
    refine ⟨h.name_eq, fun e he ↦ ?_⟩
    obtain ⟨k, rfl⟩ := List.get_of_mem he
    exact h.last k.succ (Fin.succ_pos k)
  · rintro ⟨hd, hrest⟩
    refine ⟨hd, fun j hj ↦ ?_⟩
    obtain ⟨k, rfl⟩ := Fin.exists_succ_eq.2 (Fin.pos_iff_ne_zero.1 hj)
    exact hrest _ (ds.get_mem k)

/-! ### The look-ups find what is denoted -/

theorem position?_eq_none_iff : position? name ds = none ↔ ∀ d ∈ ds, d.name ≠ name := by
  induction ds with
  | nil => simp [position?]
  | cons d rest ih =>
    rw [position?]
    rcases hp : position? name rest with - | i
    · simpa using fun _ ↦ ih.1 hp
    · have hmem : ¬∀ e ∈ rest, e.name ≠ name := fun h ↦ by simp [ih.2 h] at hp
      simp only [reduceCtorEq, List.forall_mem_cons, false_iff, not_and]
      exact fun _ ↦ hmem

/-- The position that is found is denoted. -/
theorem denotes_of_position?_eq_some {i : Fin ds.length} (h : position? name ds = some i) :
    Denotes ds name i := by
  induction ds with
  | nil => exact i.elim0
  | cons d rest ih =>
    rw [position?] at h
    rcases hp : position? name rest with - | j
    · simp only [hp, Option.ite_none_right_eq_some, Option.some.injEq] at h
      obtain ⟨hd, rfl⟩ := h
      exact denotes_cons_zero_iff.2 ⟨hd, position?_eq_none_iff.1 hp⟩
    · simp only [hp, Option.some.injEq] at h
      obtain rfl := h
      exact denotes_cons_succ_iff.2 (ih hp)

/-- **A name that is declared denotes something**: the last of the declarations called so. -/
theorem exists_denotes_of_mem {d : Declaration} (h : d ∈ ds) : ∃ i, Denotes ds d.name i := by
  rcases hp : position? d.name ds with - | i
  · exact absurd rfl (position?_eq_none_iff.1 hp d h)
  · exact ⟨i, denotes_of_position?_eq_some hp⟩

/-- **The look-up of positions is exact.** -/
theorem position?_eq_some_iff {i : Fin ds.length} :
    position? name ds = some i ↔ Denotes ds name i := by
  refine ⟨denotes_of_position?_eq_some, fun h ↦ ?_⟩
  rcases hp : position? name ds with - | j
  · exact absurd h.name_eq (position?_eq_none_iff.1 hp _ (ds.get_mem i))
  · rw [(denotes_of_position?_eq_some hp).unique h]

/-- **The look-up of types is exact.** -/
theorem typeOf?_eq_some_iff {t : TypeExpr} :
    typeOf? ds name = some t ↔ ∃ i, Denotes ds name i ∧ (ds.get i).type = t := by
  simp only [typeOf?, Option.map_eq_some_iff, position?_eq_some_iff]

/-- A name has no type if nothing declares it. -/
theorem typeOf?_eq_none_iff : typeOf? ds name = none ↔ ∀ d ∈ ds, d.name ≠ name := by
  rw [typeOf?, Option.map_eq_none_iff, position?_eq_none_iff]

/-! ### Distinct names -/

/-- With distinct names, every declaration is the one its name denotes. -/
theorem denotes_get (hnd : (ds.map Declaration.name).Nodup) (i : Fin ds.length) :
    Denotes ds (ds.get i).name i := by
  refine ⟨rfl, fun j hij heq ↦ ?_⟩
  have hinj := List.nodup_iff_injective_get.1 hnd
  have hcast : (⟨j, by simp⟩ : Fin (ds.map Declaration.name).length) = ⟨i, by simp⟩ :=
    hinj (by simpa using heq)
  exact absurd (Fin.ext_iff.1 hcast) (Nat.ne_of_gt hij)

/-- With distinct names, a name denotes every declaration that has it. -/
theorem denotes_iff_of_nodup (hnd : (ds.map Declaration.name).Nodup) {i : Fin ds.length} :
    Denotes ds name i ↔ (ds.get i).name = name :=
  ⟨Denotes.name_eq, fun h ↦ h ▸ denotes_get hnd i⟩

/-- With distinct names, the type of a name is any that is declared under it. -/
theorem typeOf?_eq_some_iff_mem (hnd : (ds.map Declaration.name).Nodup) {t : TypeExpr} :
    typeOf? ds name = some t ↔ ⟨name, t⟩ ∈ ds := by
  rw [typeOf?_eq_some_iff]
  constructor
  · rintro ⟨i, hi, rfl⟩
    obtain rfl := hi.name_eq
    exact ds.get_mem i
  · intro h
    obtain ⟨i, hi⟩ := List.get_of_mem h
    refine ⟨i, (denotes_iff_of_nodup hnd).2 ?_, ?_⟩ <;> rw [hi]

/-- **With distinct names, the order of declarations does not matter to the look-up of types.** -/
theorem typeOf?_eq_of_perm {es : List Declaration} (hperm : ds.Perm es)
    (hnd : (ds.map Declaration.name).Nodup) : typeOf? ds name = typeOf? es name := by
  have hnd' : (es.map Declaration.name).Nodup := (hperm.map _).nodup_iff.1 hnd
  ext t
  rw [typeOf?_eq_some_iff_mem hnd, typeOf?_eq_some_iff_mem hnd', hperm.mem_iff]

end SchemaCodec.Declaration
