import Mathlib.Data.List.Basic
import SchemaCodec.Acceptance

/-!
# Matching of JSON values

A literal is matched *by value*: scalars must be equal, numbers as numbers; arrays must have the
same length and match item by item; an object must have every wanted field, with a matching value,
and may have more. `Matches` states these rules one by one, and `isMatch_iff_matches` says that the
recursive test decides exactly them.
-/

namespace SchemaCodec.Json

/-- Scalars that stand for the same value. -/
inductive Scalar.Matches : Scalar → Scalar → Prop
  | equal (a : Scalar) : Matches a a
  | number {m n : Number} (h : m.sameValue n = true) : Matches (.number m) (.number n)

/-- A value that is matched by another: `Matches wanted value`. -/
inductive Matches : Json → Json → Prop
  | scalar {a b : Scalar} (h : a.Matches b) : Matches (.scalar a) (.scalar b)
  | array {ws vs : List Json} (hlen : ws.length = vs.length)
      (hitems : ∀ (i : Nat) (w v : Json), ws[i]? = some w → vs[i]? = some v → Matches w v) :
      Matches (.array ws) (.array vs)
  | object {ws vs : List (String × Json)}
      (hpresent : ∀ p ∈ ws, (Entries.get? p.1 vs).isSome)
      (hfields : ∀ p ∈ ws, ∀ v, Entries.get? p.1 vs = some v → Matches p.2 v) :
      Matches (.object ws) (.object vs)

theorem Number.sameValue_refl (n : Number) : n.sameValue n = true := by
  simp [sameValue]

/-- The comparison of scalars decides their matching. -/
theorem Scalar.isMatch_iff_matches {a b : Scalar} : a.isMatch b = true ↔ a.Matches b := by
  constructor
  · intro h
    unfold isMatch at h
    split at h
    · exact .number h
    · rw [of_decide_eq_true h]
      exact .equal b
  · rintro (- | h)
    · cases a with
      | number n => exact n.sameValue_refl
      | null => rfl
      | bool value => simp [isMatch]
      | string value => simp [isMatch]
    · exact h

/-! ### The test on lists -/

/-- Items match in order exactly when the lengths agree and equal places match. -/
theorem isMatchItems_iff {ws vs : List Json} :
    isMatchItems ws vs = true ↔ ws.length = vs.length ∧
      ∀ (i : Nat) (w v : Json), ws[i]? = some w → vs[i]? = some v → w.isMatch v = true := by
  induction ws generalizing vs with
  | nil => cases vs <;> simp [isMatchItems]
  | cons w ws ih =>
    cases vs with
    | nil => simp [isMatchItems]
    | cons v vs =>
      rw [isMatchItems, Bool.and_eq_true, ih]
      constructor
      · rintro ⟨hw, hlen, hitems⟩
        refine ⟨by simpa using hlen, fun i a b ha hb ↦ ?_⟩
        cases i with
        | zero => simp_all
        | succ i => exact hitems i a b (by simpa using ha) (by simpa using hb)
      · rintro ⟨hlen, hitems⟩
        refine ⟨hitems 0 w v rfl rfl, by simpa using hlen, fun i a b ha hb ↦ ?_⟩
        exact hitems (i + 1) a b (by simpa using ha) (by simpa using hb)

/-- Fields match exactly when each wanted one is present and matches what is found there. -/
theorem isMatchFields_iff {ws : List (String × Json)} {vs : Entries String Json} :
    isMatchFields ws vs = true ↔ (∀ p ∈ ws, (Entries.get? p.1 vs).isSome) ∧
      ∀ p ∈ ws, ∀ v, Entries.get? p.1 vs = some v → p.2.isMatch v = true := by
  induction ws with
  | nil => simp [isMatchFields]
  | cons p ws ih =>
    obtain ⟨key, w⟩ := p
    rw [isMatchFields, Bool.and_eq_true, ih]
    rcases hv : Entries.get? key vs with - | v
    · simp [hv]
    · simp only [List.forall_mem_cons, hv, Option.isSome_some, true_and, Option.some.injEq,
        forall_eq']
      tauto

/-! ### The test decides the rules -/

/-- What the comparison accepts, matches. -/
theorem matches_of_isMatch {w v : Json} (h : w.isMatch v = true) : Matches w v := by
  match w, v with
  | .scalar a, .scalar b =>
    rw [isMatch] at h
    exact .scalar (Scalar.isMatch_iff_matches.1 h)
  | .array ws, .array vs =>
    rw [isMatch, isMatchItems_iff] at h
    refine .array h.1 fun i w v hw hv ↦ ?_
    have := List.sizeOf_lt_of_mem (List.mem_of_getElem? hw)
    exact matches_of_isMatch (h.2 i w v hw hv)
  | .object ws, .object vs =>
    rw [isMatch, isMatchFields_iff] at h
    refine .object h.1 fun p hp v hv ↦ ?_
    have := sizeOf_lt_of_mem_fields hp
    exact matches_of_isMatch (h.2 p hp v hv)
  | .scalar _, .array _ => simp [isMatch] at h
  | .scalar _, .object _ => simp [isMatch] at h
  | .array _, .scalar _ => simp [isMatch] at h
  | .array _, .object _ => simp [isMatch] at h
  | .object _, .scalar _ => simp [isMatch] at h
  | .object _, .array _ => simp [isMatch] at h
termination_by sizeOf w

/-- What matches, the comparison accepts. -/
theorem isMatch_of_matches {w v : Json} (h : Matches w v) : w.isMatch v = true := by
  induction h with
  | scalar h =>
    rw [isMatch]
    exact Scalar.isMatch_iff_matches.2 h
  | array hlen _ ih =>
    rw [isMatch, isMatchItems_iff]
    exact ⟨hlen, ih⟩
  | object hpresent _ ih =>
    rw [isMatch, isMatchFields_iff]
    exact ⟨hpresent, ih⟩

/-- **The recursive test decides the rules of matching.** -/
theorem isMatch_iff_matches {w v : Json} : w.isMatch v = true ↔ Matches w v :=
  ⟨matches_of_isMatch, isMatch_of_matches⟩

end SchemaCodec.Json
