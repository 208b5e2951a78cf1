import Mathlib.Data.Fintype.Card
import Mathlib.Data.Finite.Prod
import Mathlib.Logic.Relation
import Mathlib.Order.WellFounded
import SchemaCodec.Dependency.Graph

/-!
# Reachability and cycles

`Reaches r alive` is reachability in steps of `r` that stay among living positions. A position is on
a cycle (`OnCycle`) when it reaches another one and is reached back from there; steps from a
position to itself do not matter (`onCycle_congr`).

Where each of finitely many living positions has a step to another living one, some position is on a
cycle (`exists_onCycle`), and every position reaches one (`exists_onCycle_of_reaches`).
-/

namespace SchemaCodec

open Relation

section Cycles

variable {α : Type} {r : α → α → Prop} {alive : α → Prop} {a b : α}

/-- `b` can be reached from `a` in steps of `r` between living positions. -/
def Reaches (r : α → α → Prop) (alive : α → Prop) : α → α → Prop :=
  ReflTransGen fun a b ↦ alive a ∧ alive b ∧ r a b

/-- `a` and some other position reach each other: `a` lies on a cycle of at least two living
positions. -/
def OnCycle (r : α → α → Prop) (alive : α → Prop) (a : α) : Prop :=
  ∃ b, b ≠ a ∧ Reaches r alive a b ∧ Reaches r alive b a

/-- A walk that leaves `a` can be cut to leave it in its first step. -/
theorem Reaches.exists_first_step (hne : b ≠ a) (h : Reaches r alive a b) :
    ∃ c, c ≠ a ∧ (alive a ∧ alive c ∧ r a c) ∧ Reaches r alive c b := by
  induction h using ReflTransGen.head_induction_on with
  | refl => exact absurd rfl hne
  | @head a c hac hcb ih =>
    by_cases hc : c = a
    · subst hc
      exact ih hne
    · exact ⟨c, hc, hac, hcb⟩

/-- Being on a cycle, read off the first step: some *other* living position leads back. -/
theorem onCycle_iff_exists_step :
    OnCycle r alive a ↔ ∃ c, c ≠ a ∧ (alive a ∧ alive c ∧ r a c) ∧ Reaches r alive c a := by
  constructor
  · rintro ⟨b, hne, hab, hba⟩
    obtain ⟨c, hc, hac, hcb⟩ := hab.exists_first_step hne
    exact ⟨c, hc, hac, hcb.trans hba⟩
  · rintro ⟨c, hc, hac, hca⟩
    exact ⟨c, hc, .single hac, hca⟩

theorem OnCycle.living (h : OnCycle r alive a) : alive a := by
  obtain ⟨c, -, hac, -⟩ := onCycle_iff_exists_step.1 h
  exact hac.1

/-- What lies on a cycle reaches itself. -/
theorem OnCycle.transGen (h : OnCycle r alive a) : TransGen r a a := by
  obtain ⟨c, -, hac, hca⟩ := onCycle_iff_exists_step.1 h
  exact TransGen.head' hac.2.2 (ReflTransGen.mono (fun _ _ h ↦ h.2.2) c a hca)

/-- Steps from a position to itself can be left out, and more positions may be alive. -/
theorem Reaches.mono {r' : α → α → Prop} {alive' : α → Prop}
    (hstep : ∀ a b, b ≠ a → r a b → r' a b) (halive : ∀ a, alive a → alive' a)
    (h : Reaches r alive a b) : Reaches r' alive' a b := by
  induction h with
  | refl => exact .refl
  | @tail b c _ hbc ih =>
    by_cases hne : c = b
    · rwa [hne]
    · exact ih.tail ⟨halive b hbc.1, halive c hbc.2.1, hstep b c hne hbc.2.2⟩

/-- With fewer positions alive there are fewer cycles. -/
theorem OnCycle.mono {r' : α → α → Prop} {alive' : α → Prop}
    (hstep : ∀ a b, b ≠ a → r a b → r' a b) (halive : ∀ a, alive a → alive' a)
    (h : OnCycle r alive a) : OnCycle r' alive' a := by
  obtain ⟨b, hne, hab, hba⟩ := h
  exact ⟨b, hne, hab.mono hstep halive, hba.mono hstep halive⟩

/-- Cycles depend on the steps between different positions only. -/
theorem onCycle_congr {r' : α → α → Prop} (hstep : ∀ a b, b ≠ a → (r a b ↔ r' a b)) :
    OnCycle r alive a ↔ OnCycle r' alive a :=
  ⟨OnCycle.mono (fun a b hne ↦ (hstep a b hne).1) fun _ h ↦ h,
    OnCycle.mono (fun a b hne ↦ (hstep a b hne).2) fun _ h ↦ h⟩

/-- **A stall has a cycle.** If every living position has a step to another living one, then some
position is on a cycle: otherwise reaching would be a well-founded order, with a last position. -/
theorem exists_onCycle [Finite α] (hsome : ∃ a, alive a)
    (hnext : ∀ a, alive a → ∃ b, b ≠ a ∧ alive b ∧ r a b) : ∃ a, OnCycle r alive a := by
  by_contra hnone
  simp only [not_exists] at hnone
  -- steps between different living positions
  let step (a b : α) : Prop := b ≠ a ∧ alive a ∧ alive b ∧ r a b
  have hirrefl : ∀ a, ¬TransGen step a a := by
    intro a ha
    obtain ⟨b, hab, hba⟩ := TransGen.head'_iff.1 ha
    refine hnone a (onCycle_iff_exists_step.2 ⟨b, hab.1, hab.2, ?_⟩)
    exact ReflTransGen.mono (fun _ _ h ↦ h.2) b a hba
  have : Std.Irrefl (fun a b ↦ TransGen step b a) := ⟨hirrefl⟩
  have : IsTrans α (fun a b ↦ TransGen step b a) := ⟨fun _ _ _ hab hbc ↦ hbc.trans hab⟩
  have hwf := Finite.wellFounded_of_trans_of_irrefl fun a b ↦ TransGen step b a
  obtain ⟨a, ha, hmin⟩ := hwf.has_min {a | alive a} hsome
  obtain ⟨b, hne, hb, hab⟩ := hnext a ha
  exact hmin b hb (.single ⟨hne, ha, hb, hab⟩)

/-- The same for what one position leads to: in a stall, every living position reaches a cycle. -/
theorem exists_onCycle_of_reaches [Finite α] (ha : alive a)
    (hnext : ∀ b, alive b → ∃ c, c ≠ b ∧ alive c ∧ r b c) :
    ∃ b, Reaches r alive a b ∧ OnCycle r alive b := by
  have hsome : ∃ b, alive b ∧ Reaches r alive a b := ⟨a, ha, .refl⟩
  obtain ⟨b, hb⟩ := exists_onCycle (r := r) hsome fun b hb ↦ by
    obtain ⟨c, hne, hc, hbc⟩ := hnext b hb.1
    exact ⟨c, hne, ⟨hc, hb.2.tail ⟨hb.1, hc, hbc⟩⟩, hbc⟩
  exact ⟨b, hb.living.2, hb.mono (fun _ _ _ h ↦ h) fun _ h ↦ h.1⟩

end Cycles

namespace Graph

variable {n : ℕ} {g : Graph n}

/-- `i` depends on `j`. -/
def Edge (g : Graph n) (i j : Fin n) : Prop :=
  j ∈ g.dependencies i

/-- Writing one place of a vector and reading any other. -/
theorem get_set {α : Type} (xs : Vector α n) (i j : Fin n) (x : α) :
    (xs.set i x i.isLt).get j = if i = j then x else xs.get j := by
  show (xs.set i x i.isLt)[j.val] = _
  rw [Vector.getElem_set]
  simp only [Fin.ext_iff]
  rfl

end Graph

end SchemaCodec
