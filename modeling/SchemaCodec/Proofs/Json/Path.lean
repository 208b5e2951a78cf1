import SchemaCodec.Proofs.Entries
import SchemaCodec.Proofs.Json.DistinctKeys
import SchemaCodec.Proofs.Json.Matching
import SchemaCodec.Reading

/-!
# Paths into JSON values

A path leads through keys and places of items to a part of a value. `at?` finds the part and
`replace?` puts another value in its place.

Matching follows paths. What the wanted value has at the end of a path must be matched by what the
value has there (`Matches.exists_at?`), and if something is replaced there, then that part is all
that has to be looked at again (`matches_replace?_iff`).
-/

namespace SchemaCodec.Json

/-- The part of a value one step down. -/
def child? : Step → Json → Option Json
  | .key name, v => v.field? name
  | .index i, v => v.items?.bind fun items ↦ items[i]?

/-- The value with another part one step down, in a place that it has. -/
def setChild : Step → Json → Json → Json
  | .key name, new, .object fields => .object (Entries.insert name new fields)
  | .index i, new, .array items => .array (items.set i new)
  | _, _, v => v

/-- The part of a value at the end of a path. -/
def at? : List Step → Json → Option Json
  | [], v => some v
  | step :: path, v => (v.child? step).bind (at? path)

/-- The value with another part at the end of a path; `none` if the path leads nowhere. -/
def replace? : List Step → Json → Json → Option Json
  | [], new, _ => some new
  | step :: path, new, v =>
    (v.child? step).bind fun child ↦ (replace? path new child).map fun child' ↦ setChild step child' v

variable {a b c new v x : Json} {step : Step} {path : List Step}

/-- A replacement below a step replaces inside the child and puts the result back. -/
theorem exists_of_replace?_cons (h : replace? (step :: path) new b = some c) :
    ∃ child child', b.child? step = some child ∧ replace? path new child = some child' ∧
      setChild step child' b = c := by
  obtain ⟨child, hchild, h⟩ := Option.bind_eq_some_iff.1 h
  obtain ⟨child', hchild', rfl⟩ := Option.map_eq_some_iff.1 h
  exact ⟨child, child', hchild, hchild', rfl⟩

/-- A child of a value with distinct keys has distinct keys. -/
theorem DistinctKeys.child? (h : a.DistinctKeys) (hx : a.child? step = some x) :
    x.DistinctKeys := by
  cases step with
  | key name => exact h.field? hx
  | index i =>
    obtain ⟨items, hitems, hx⟩ := Option.bind_eq_some_iff.1 hx
    cases a with
    | array items' =>
      obtain rfl : items' = items := Option.some_inj.1 hitems
      exact h.item (List.mem_of_getElem? hx)
    | scalar s => simp [items?] at hitems
    | object fields => simp [items?] at hitems

/-! ### Matching along a path -/

/-- What is wanted one step down is found there and matches. -/
theorem Matches.exists_child? (h : Matches a b) (hx : a.child? step = some x) :
    ∃ y, b.child? step = some y ∧ Matches x y := by
  cases step with
  | key name =>
    cases h with
    | object hpresent hfields =>
      have hmem := Entries.mem_of_get?_eq_some (show Entries.get? name _ = some x from hx)
      obtain ⟨y, hy⟩ := Option.isSome_iff_exists.1 (hpresent _ hmem)
      exact ⟨y, hy, hfields _ hmem y hy⟩
    | scalar _ => simp [Json.child?, field?, fields?] at hx
    | array _ _ => simp [Json.child?, field?, fields?] at hx
  | index i =>
    cases h with
    | @array ws vs hlen hitems =>
      have hw : ws[i]? = some x := hx
      have hlt : i < vs.length := hlen ▸ (List.getElem?_eq_some_iff.1 hw).1
      have hv : vs[i]? = some vs[i] := List.getElem?_eq_getElem hlt
      exact ⟨vs[i], hv, hitems i x vs[i] hw hv⟩
    | scalar _ => simp [Json.child?, items?] at hx
    | object _ _ => simp [Json.child?, items?] at hx

/-- **What is wanted at the end of a path is matched there.** -/
theorem Matches.exists_at? (h : Matches a b) (hx : a.at? path = some x) :
    ∃ y, b.at? path = some y ∧ Matches x y := by
  induction path generalizing a b with
  | nil =>
    obtain rfl := Option.some_inj.1 hx
    exact ⟨b, rfl, h⟩
  | cons step path ih =>
    obtain ⟨u, hu, hx⟩ := Option.bind_eq_some_iff.1 hx
    obtain ⟨v, hv, huv⟩ := h.exists_child? hu
    obtain ⟨y, hy, hxy⟩ := ih huv hx
    exact ⟨y, Option.bind_eq_some_iff.2 ⟨v, hv, hy⟩, hxy⟩

/-! ### Matching after a replacement -/

/-- What was put at a step is found there. -/
theorem child?_setChild (h : (b.child? step).isSome) :
    (setChild step v b).child? step = some v := by
  cases step with
  | key name =>
    cases b with
    | object fields =>
      show Entries.get? name (Entries.insert name v fields) = some v
      rw [Entries.get?_insert, if_pos rfl]
    | scalar s => simp [child?, field?, fields?] at h
    | array items => simp [child?, field?, fields?] at h
  | index i =>
    cases b with
    | array items =>
      have hlt : i < items.length := by simpa [child?, items?] using h
      show (items.set i v)[i]? = some v
      rw [List.getElem?_set_self hlt]
    | scalar s => simp [child?, items?] at h
    | object fields => simp [child?, items?] at h

/-- After one part was replaced, only what is wanted of this part has to be looked at. -/
theorem matches_setChild_iff (ha : a.DistinctKeys) (h : Matches a b)
    (hb : (b.child? step).isSome) :
    Matches a (setChild step v b) ↔ ∀ u, a.child? step = some u → Matches u v := by
  constructor
  · intro h' u hu
    obtain ⟨y, hy, huy⟩ := h'.exists_child? hu
    rw [child?_setChild hb, Option.some_inj] at hy
    rwa [hy]
  · intro hv
    cases step with
    | key name =>
      cases h with
      | object hpresent hfields =>
        refine .object (fun p hp ↦ ?_) fun p hp y hy ↦ ?_
        · rw [Entries.get?_insert]
          split
          · rfl
          · exact hpresent p hp
        · rw [Entries.get?_insert] at hy
          split at hy
          · next hname =>
            rw [← Option.some_inj.1 hy]
            exact hv p.2 (hname ▸ (Entries.get?_eq_some_iff_mem ha.nodup_keys).2 hp)
          · exact hfields p hp y hy
      | scalar h => exact .scalar h
      | array hlen hitems => exact .array hlen hitems
    | index i =>
      cases h with
      | @array ws vs hlen hitems =>
        have hlt : i < vs.length := by simpa [child?, items?] using hb
        refine .array (by rw [hlen, List.length_set]) fun k u y hu hy ↦ ?_
        by_cases hik : i = k
        · subst hik
          rw [List.getElem?_set_self hlt, Option.some_inj] at hy
          exact hy ▸ hv u hu
        · rw [List.getElem?_set_ne hik] at hy
          exact hitems k u y hu hy
      | scalar h => exact .scalar h
      | object hpresent hfields => exact .object hpresent hfields

/-- **A replacement concerns the part that was replaced.** A value that matches goes on to match if
and only if the new part is what is wanted at the end of the path, if anything is. -/
theorem matches_replace?_iff (ha : a.DistinctKeys) (h : Matches a b)
    (hc : replace? path new b = some c) :
    Matches a c ↔ ∀ x, a.at? path = some x → Matches x new := by
  induction path generalizing a b c with
  | nil =>
    obtain rfl : new = c := Option.some_inj.1 hc
    exact ⟨fun h x hx ↦ Option.some_inj.1 hx ▸ h, fun h ↦ h a rfl⟩
  | cons step path ih =>
    obtain ⟨v, v', hv, hv', rfl⟩ := exists_of_replace?_cons hc
    have hpart (u : Json) (hu : a.child? step = some u) :
        Matches u v' ↔ ∀ x, u.at? path = some x → Matches x new := by
      obtain ⟨y, hy, huy⟩ := h.exists_child? hu
      obtain rfl : v = y := Option.some_inj.1 (hv.symm.trans hy)
      exact ih (ha.child? hu) huy hv'
    rw [matches_setChild_iff ha h (Option.isSome_of_eq_some hv)]
    simp only [at?, Option.bind_eq_some_iff, forall_exists_index, and_imp]
    exact ⟨fun h x u hu ↦ (hpart u hu).1 (h u hu) x, fun h u hu ↦ (hpart u hu).2 fun x ↦ h x u hu⟩

end SchemaCodec.Json
