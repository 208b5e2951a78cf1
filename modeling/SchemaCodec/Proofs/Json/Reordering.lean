import SchemaCodec.Proofs.Entries
import SchemaCodec.Proofs.Json.Matching

/-!
# Values that differ in the order of keys

`Reordered v w` says that `w` is `v` with the keys of its objects in another order, at any depth.
The items of an array keep their places, and no object has a key twice: where one had, the order
would decide which of the two counts.

A reordered value has the same keywords with reordered values (`Reordered.exists_field?`), and it
matches what the original matches (`Matches.reordered`). The relation is symmetric, so a statement
that passes from a value to every reordered one holds of both or of neither.
-/

namespace SchemaCodec.Json

/-- Two values that differ in the order of keys only. -/
inductive Reordered : Json → Json → Prop
  | scalar (s : Scalar) : Reordered (.scalar s) (.scalar s)
  | array {xs ys : List Json} (hlen : xs.length = ys.length)
      (hitems : ∀ (i : Nat) (x y : Json), xs[i]? = some x → ys[i]? = some y → Reordered x y) :
      Reordered (.array xs) (.array ys)
  | object {fs gs : List (String × Json)} (hdistinct : (Entries.keys fs).Nodup)
      (hkeys : (Entries.keys fs).Perm (Entries.keys gs))
      (hvalues : ∀ key x y, (key, x) ∈ fs → (key, y) ∈ gs → Reordered x y) :
      Reordered (.object fs) (.object gs)

namespace Reordered

variable {v w x : Json} {xs ys : List Json} {fs gs : List (String × Json)} {key : String}

/-- The order of fields can be undone, since distinct keys stay distinct. -/
theorem symm (h : Reordered v w) : Reordered w v := by
  induction h with
  | scalar s => exact .scalar s
  | array hlen _ ih => exact .array hlen.symm fun i y x hy hx ↦ ih i x y hx hy
  | object hdistinct hkeys _ ih =>
    exact .object (hkeys.nodup_iff.1 hdistinct) hkeys.symm fun key y x hy hx ↦ ih key x y hx hy

/-! ### Kinds -/

/-- A scalar has no fields to reorder. -/
theorem eq_scalar {s : Scalar} (h : Reordered (.scalar s) w) : w = .scalar s := by
  cases h
  rfl

theorem exists_array (h : Reordered (.array xs) w) : ∃ ys, w = .array ys := by
  cases h
  exact ⟨_, rfl⟩

theorem exists_object (h : Reordered (.object fs) w) : ∃ gs, w = .object gs := by
  cases h
  exact ⟨_, rfl⟩

/-! ### Parts -/

/-- Items correspond place by place: only fields move. -/
theorem exists_getElem? (h : Reordered (.array xs) (.array ys)) {i : Nat} (hx : xs[i]? = some x) :
    ∃ y, ys[i]? = some y ∧ Reordered x y := by
  cases h with
  | array hlen hitems =>
    obtain ⟨hi, -⟩ := List.getElem?_eq_some_iff.1 hx
    have hy : ys[i]? = some ys[i] := List.getElem?_eq_getElem (hlen ▸ hi)
    exact ⟨_, hy, hitems i x _ hx hy⟩

/-- Every item has its counterpart among the items of the other array. -/
theorem exists_mem_items (h : Reordered (.array xs) (.array ys)) (hx : x ∈ xs) :
    ∃ y ∈ ys, Reordered x y := by
  obtain ⟨i, hi⟩ := List.mem_iff_getElem?.1 hx
  obtain ⟨y, hy, hxy⟩ := h.exists_getElem? hi
  exact ⟨y, List.mem_of_getElem? hy, hxy⟩

theorem nodup_keys (h : Reordered (.object fs) (.object gs)) : (Entries.keys fs).Nodup := by
  cases h with
  | object hdistinct _ _ => exact hdistinct

/-- Every field has its counterpart under the same key, wherever it moved. -/
theorem exists_mem_fields (h : Reordered (.object fs) (.object gs)) (hx : (key, x) ∈ fs) :
    ∃ y, (key, y) ∈ gs ∧ Reordered x y := by
  cases h with
  | object _ hkeys hvalues =>
    have hkey : key ∈ Entries.keys gs := hkeys.mem_iff.1 (List.mem_map_of_mem hx)
    obtain ⟨⟨key, y⟩, hy, rfl⟩ := List.mem_map.1 hkey
    exact ⟨y, hy, hvalues key x y hx hy⟩

/-- A lookup in a reordered object finds the counterpart. This is where distinct keys are needed:
the first field with a key is the only one. -/
theorem exists_get? (h : Reordered (.object fs) (.object gs))
    (hx : Entries.get? key fs = some x) : ∃ y, Entries.get? key gs = some y ∧ Reordered x y := by
  obtain ⟨y, hy, hxy⟩ := h.exists_mem_fields (Entries.mem_of_get?_eq_some hx)
  exact ⟨y, (Entries.get?_eq_some_iff_mem h.symm.nodup_keys).2 hy, hxy⟩

/-- A key that is missing before is missing after. -/
theorem get?_eq_none (h : Reordered (.object fs) (.object gs))
    (hnone : Entries.get? key fs = none) : Entries.get? key gs = none := by
  by_contra hsome
  obtain ⟨y, hy⟩ := Option.ne_none_iff_exists'.1 hsome
  obtain ⟨x, hx, -⟩ := h.symm.exists_get? hy
  exact absurd (hnone.symm.trans hx) (by simp)

/-! ### Keywords -/

/-- Lookups of a key agree up to reordering, for values of any shape. -/
theorem exists_field? (h : Reordered v w) (hx : v.field? key = some x) :
    ∃ y, w.field? key = some y ∧ Reordered x y := by
  cases v with
  | scalar s => exact absurd hx (by simp [field?, fields?])
  | array items => exact absurd hx (by simp [field?, fields?])
  | object fs =>
    obtain ⟨gs, rfl⟩ := h.exists_object
    exact h.exists_get? hx

/-- A value without a field has none after reordering. -/
theorem field?_eq_none (h : Reordered v w) (hnone : v.field? key = none) :
    w.field? key = none := by
  by_contra hsome
  obtain ⟨y, hy⟩ := Option.ne_none_iff_exists'.1 hsome
  obtain ⟨x, hx, -⟩ := h.symm.exists_field? hy
  exact absurd (hnone.symm.trans hx) (by simp)

/-- A field that is a string is found unchanged. -/
theorem field?_string {s : String} (h : Reordered v w) (hx : v.field? key = some (.string s)) :
    w.field? key = some (.string s) := by
  obtain ⟨y, hy, hxy⟩ := h.exists_field? hx
  obtain rfl := hxy.eq_scalar
  exact hy

/-- A field that is an array is found as an array with corresponding items. -/
theorem field?_array (h : Reordered v w) (hx : v.field? key = some (.array xs)) :
    ∃ ys, w.field? key = some (.array ys) ∧ Reordered (.array xs) (.array ys) := by
  obtain ⟨y, hy, hxy⟩ := h.exists_field? hx
  obtain ⟨ys, rfl⟩ := hxy.exists_array
  exact ⟨ys, hy, hxy⟩

/-- A field that is an object is found as an object with corresponding fields. -/
theorem field?_object (h : Reordered v w) (hx : v.field? key = some (.object fs)) :
    ∃ gs, w.field? key = some (.object gs) ∧ Reordered (.object fs) (.object gs) := by
  obtain ⟨y, hy, hxy⟩ := h.exists_field? hx
  obtain ⟨gs, rfl⟩ := hxy.exists_object
  exact ⟨gs, hy, hxy⟩

/-! ### Small objects -/

theorem singleton {y : Json} (h : Reordered x y) :
    Reordered (.object [(key, x)]) (.object [(key, y)]) := by
  refine .object (List.nodup_singleton key) (.refl _) fun key a b ha hb ↦ ?_
  simp only [List.mem_singleton, Prod.mk.injEq] at ha hb
  rwa [ha.2, hb.2]

/-- Two fields with different keys may change places. -/
theorem swap {x' y y' : Json} {key' : String} (hne : key ≠ key') (hx : Reordered x x')
    (hy : Reordered y y') :
    Reordered (.object [(key, x), (key', y)]) (.object [(key', y'), (key, x')]) := by
  refine .object ?_ (.swap _ _ _) fun k a b ha hb ↦ ?_
  · simpa [Entries.keys] using hne
  · simp only [List.mem_cons, Prod.mk.injEq, List.not_mem_nil, or_false] at ha hb
    rcases ha with ⟨rfl, rfl⟩ | ⟨rfl, rfl⟩
    · obtain rfl := (hb.resolve_left fun h ↦ hne h.1).2
      exact hx
    · obtain rfl := (hb.resolve_right fun h ↦ hne h.1.symm).2
      exact hy

end Reordered

/-! ### Matching -/

/-- **Matching does not depend on the order of keys.** -/
theorem Matches.reordered {wanted wanted' v v' : Json} (h : wanted.Matches v)
    (hw : Reordered wanted wanted') (hv : Reordered v v') : wanted'.Matches v' := by
  induction h generalizing wanted' v' with
  | scalar h =>
    obtain rfl := hw.eq_scalar
    obtain rfl := hv.eq_scalar
    exact .scalar h
  | array hlen _ ih =>
    cases hw with
    | array hlenw hw =>
      cases hv with
      | array hlenv hv =>
        refine .array (hlenw.symm.trans (hlen.trans hlenv)) fun i w' v' hw' hv' ↦ ?_
        obtain ⟨w, hwi, hwi'⟩ := (Reordered.array hlenw hw).symm.exists_getElem? hw'
        obtain ⟨v, hvi, hvi'⟩ := (Reordered.array hlenv hv).symm.exists_getElem? hv'
        exact ih i w v hwi hvi hwi'.symm hvi'.symm
  | object hpresent _ ih =>
    obtain ⟨ws', rfl⟩ := hw.exists_object
    obtain ⟨vs', rfl⟩ := hv.exists_object
    constructor
    · rintro ⟨key, w'⟩ hw'
      obtain ⟨w, hmem, -⟩ := hw.symm.exists_mem_fields hw'
      obtain ⟨v, hget⟩ := Option.isSome_iff_exists.1 (hpresent _ hmem)
      obtain ⟨v', hget', -⟩ := hv.exists_get? hget
      exact Option.isSome_of_eq_some hget'
    · rintro ⟨key, w'⟩ hw' v' hget'
      obtain ⟨w, hmem, hww'⟩ := hw.symm.exists_mem_fields hw'
      obtain ⟨v, hget, hvv'⟩ := hv.symm.exists_get? hget'
      exact ih _ hmem v hget hww'.symm hvv'.symm

end SchemaCodec.Json
