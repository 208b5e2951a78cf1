import Mathlib.Logic.Relation

/-!
# Subtrees

Types and codec expressions are trees, each described by the list of its children. `Subtree` is the
relation between a tree and what stands in it at any depth, and a property that holds `Everywhere`
in a tree is one that holds at the root and everywhere in the children.
-/

namespace SchemaCodec

variable {α : Type} {children : α → List α} {P : α → Prop} {s t : α}

/-- `s` is `t` or stands somewhere below it. -/
def Subtree (children : α → List α) (s t : α) : Prop :=
  Relation.ReflTransGen (fun child t ↦ child ∈ children t) s t

/-- Every subtree has the property. -/
def Everywhere (children : α → List α) (P : α → Prop) (t : α) : Prop :=
  ∀ s, Subtree children s t → P s

/-- What holds everywhere holds at the root and everywhere in each child. -/
theorem everywhere_iff :
    Everywhere children P t ↔ P t ∧ ∀ child ∈ children t, Everywhere children P child := by
  constructor
  · intro h
    exact ⟨h t .refl, fun child hchild s hs ↦ h s (hs.tail hchild)⟩
  · rintro ⟨hroot, hchildren⟩ s hs
    rcases hs.cases_tail with rfl | ⟨child, hs, hchild⟩
    · exact hroot
    · exact hchildren child hchild s hs

theorem Everywhere.root (h : Everywhere children P t) : P t :=
  (everywhere_iff.1 h).1

/-- What holds everywhere in a tree holds everywhere in its children. -/
theorem Everywhere.child (h : Everywhere children P t) (hs : s ∈ children t) :
    Everywhere children P s :=
  (everywhere_iff.1 h).2 s hs

theorem everywhere_of_leaf (h : P t) (hleaf : children t = []) : Everywhere children P t :=
  everywhere_iff.2 ⟨h, by simp [hleaf]⟩

end SchemaCodec
