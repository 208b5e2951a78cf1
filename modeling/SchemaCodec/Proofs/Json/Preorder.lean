import Mathlib.Logic.Relation
import SchemaCodec.Proofs.Acceptance.Derivation
import SchemaCodec.Proofs.Json.Path
import SchemaCodec.Proofs.Schema.Reading

/-!
# Matching is a preorder

A value with distinct keys matches itself (`Matches.refl`), and matching is transitive
(`Matches.trans`). So whoever wants a value accepts all that can be had from it, step by step,
without losing the match: above all, values with additional keys, in any object at any depth
(`Matches.gainsKeys`).

With arrays it is different. An array of another length does not match, and in a larger value it
makes the difference exactly where something is wanted in its place (`matches_resized_iff`).
-/

namespace SchemaCodec.Json

open Relation

/-- Numerical equality of numbers is transitive, signs of zero forgotten. -/
theorem Number.sameValue_trans {l m n : Number} (hlm : l.sameValue m = true)
    (hmn : m.sameValue n = true) : l.sameValue n = true := by
  simp only [sameValue, beq_iff_eq] at *
  exact hlm.trans hmn

/-- Matching of scalars is transitive. -/
theorem Scalar.Matches.trans {a b c : Scalar} (hab : a.Matches b) (hbc : b.Matches c) :
    a.Matches c := by
  cases hab with
  | equal _ => exact hbc
  | number hlm =>
    cases hbc with
    | equal _ => exact .number hlm
    | number hmn => exact .number (Number.sameValue_trans hlm hmn)

namespace Matches

variable {a b c : Json}

/-- A value matches itself: each key finds its own field, the keys being distinct. -/
protected theorem refl (ha : a.DistinctKeys) : Matches a a := by
  induction ha with
  | scalar s => exact .scalar (.equal s)
  | array _ ih =>
    refine .array rfl fun i w v hw hv ↦ ?_
    obtain rfl := Option.some_inj.1 (hw.symm.trans hv)
    exact ih w (List.mem_of_getElem? hw)
  | @object fields hkeys _ ih =>
    have hget (p : String × Json) (hp : p ∈ fields) : Entries.get? p.1 fields = some p.2 :=
      (Entries.get?_eq_some_iff_mem hkeys).2 hp
    refine .object (fun p hp ↦ Option.isSome_of_eq_some (hget p hp)) fun p hp v hv ↦ ?_
    obtain rfl := Option.some_inj.1 ((hget p hp).symm.trans hv)
    exact ih p hp

/-- Matching is transitive, whether or not keys are distinct. -/
protected theorem trans (hab : Matches a b) (hbc : Matches b c) : Matches a c := by
  induction hab generalizing c with
  | scalar hab =>
    cases hbc with
    | scalar hbc => exact .scalar (hab.trans hbc)
  | @array ws vs hlen _ ih =>
    cases hbc with
    | array hlen' hitems =>
      refine .array (hlen.trans hlen') fun i w u hw hu ↦ ?_
      have hlt : i < vs.length := hlen ▸ (List.getElem?_eq_some_iff.1 hw).1
      have hv : vs[i]? = some vs[i] := List.getElem?_eq_getElem hlt
      exact ih i w vs[i] hw hv (hitems i vs[i] u hv hu)
  | @object ws vs hpresent _ ih =>
    cases hbc with
    | object hpresent' hfields =>
      -- a wanted key leads to a field of the middle value, which is wanted of the last one
      have hmiddle (p : String × Json) (hp : p ∈ ws) :
          ∃ v, Entries.get? p.1 vs = some v ∧ (p.1, v) ∈ vs := by
        obtain ⟨v, hv⟩ := Option.isSome_iff_exists.1 (hpresent p hp)
        exact ⟨v, hv, Entries.mem_of_get?_eq_some hv⟩
      refine .object (fun p hp ↦ ?_) fun p hp u hu ↦ ?_
      · obtain ⟨v, -, hmem⟩ := hmiddle p hp
        exact hpresent' (p.1, v) hmem
      · obtain ⟨v, hv, hmem⟩ := hmiddle p hp
        exact ih p hp v hv (hfields (p.1, v) hmem u hu)

end Matches

/-! ### More keys -/

/-- Somewhere in the value, an object gains a field under a key that it did not have. -/
def GainsKey (b c : Json) : Prop :=
  ∃ path before key value after, key ∉ Entries.keys (before ++ after) ∧
    b.at? path = some (.object (before ++ after)) ∧
      replace? path (.object (before ++ (key, value) :: after)) b = some c

/-- A wanted object does not mind one more field under a new key. -/
theorem Matches.gainsField {a value : Json} {before after : List (String × Json)} {key : String}
    (hkey : key ∉ Entries.keys (before ++ after)) (h : Matches a (.object (before ++ after))) :
    Matches a (.object (before ++ (key, value) :: after)) := by
  cases h with
  | @object ws _ hpresent hfields =>
    have hget (p : String × Json) (hp : p ∈ ws) :
        Entries.get? p.1 (before ++ (key, value) :: after) = Entries.get? p.1 (before ++ after) := by
      refine Entries.get?_append_cons_of_ne fun heq ↦ hkey ?_
      rw [heq]
      exact Entries.get?_isSome_iff.1 (hpresent p hp)
    refine .object (fun p hp ↦ ?_) fun p hp v hv ↦ ?_
    · rw [hget p hp]
      exact hpresent p hp
    · rw [hget p hp] at hv
      exact hfields p hp v hv

/-- Matching survives a new key anywhere inside. -/
theorem Matches.gainsKey {a b c : Json} (ha : a.DistinctKeys) (h : Matches a b)
    (hbc : GainsKey b c) : Matches a c := by
  obtain ⟨path, before, key, value, after, hkey, hat, hc⟩ := hbc
  refine (matches_replace?_iff ha h hc).2 fun x hx ↦ ?_
  obtain ⟨y, hy, hxy⟩ := h.exists_at? hx
  obtain rfl := Option.some_inj.1 (hat.symm.trans hy)
  exact hxy.gainsField hkey

/-- **More keys do not hurt**, however many are added and wherever. -/
theorem Matches.gainsKeys {a b c : Json} (ha : a.DistinctKeys) (h : Matches a b)
    (hbc : ReflTransGen GainsKey b c) : Matches a c := by
  induction hbc with
  | refl => exact h
  | tail _ hstep ih => exact ih.gainsKey ha hstep

/-! ### Arrays of another length -/

/-- Only an array of the same length matches an array. -/
theorem Matches.exists_array {a : Json} {items : List Json} (h : Matches a (.array items)) :
    ∃ ws, a = .array ws ∧ ws.length = items.length := by
  cases h with
  | array hlen _ => exact ⟨_, rfl, hlen⟩

/-- An array is not matched by one of another length. -/
theorem Matches.length_eq {ws vs : List Json} (h : Matches (.array ws) (.array vs)) :
    ws.length = vs.length := by
  cases h with
  | array hlen _ => exact hlen

/-- **An array of another length hurts exactly where something is wanted in its place.** -/
theorem matches_resized_iff {a b c : Json} {path : List Step} {items items' : List Json}
    (ha : a.DistinctKeys) (h : Matches a b) (hat : b.at? path = some (.array items))
    (hlen : items.length ≠ items'.length) (hc : replace? path (.array items') b = some c) :
    Matches a c ↔ a.at? path = none := by
  rw [matches_replace?_iff ha h hc]
  constructor
  · intro hnew
    by_contra hsome
    obtain ⟨x, hx⟩ := Option.ne_none_iff_exists'.1 hsome
    obtain ⟨y, hy, hxy⟩ := h.exists_at? hx
    obtain rfl := Option.some_inj.1 (hat.symm.trans hy)
    obtain ⟨ws, rfl, hws⟩ := hxy.exists_array
    exact hlen (hws.symm.trans (hnew _ hx).length_eq)
  · intro hnone x hx
    exact absurd (hnone.symm.trans hx) (by simp)

/-- Arrays in the same place have the same length. -/
theorem Matches.length_at?_eq {a b : Json} {path : List Step} {items items' : List Json}
    (h : Matches a b) (ha : a.at? path = some (.array items))
    (hb : b.at? path = some (.array items')) : items.length = items'.length := by
  obtain ⟨y, hy, hmatch⟩ := h.exists_at? ha
  obtain rfl := Option.some_inj.1 (hb.symm.trans hy)
  exact hmatch.length_eq

/-! ### The preorder -/

/-- A schema with a constant, unless it is a reference, accepts the constant, whatever is
declared. -/
theorem accepts_const {node payload : Json} (hpayload : payload.DistinctKeys)
    (hconst : node.field? "const" = some payload)
    (href : ∀ target, node.field? "$ref" ≠ some (.string target)) (ds : List Declaration)
    (guard : List String) : Declaration.accepts ds guard (.ofSchema node) payload = true := by
  have hpass : Schema.PassesOver 1 node := by
    simpa [Schema.PassesOver, Schema.keywordRules] using href
  rw [(Schema.ReadsAs.const hpass hconst).eq, Declaration.accepts_literal_iff]
  exact .refl hpayload

/-- **Matching is a preorder.** On values with distinct keys it is reflexive and transitive. Hence a
schema with a constant, unless it is a reference, accepts this constant, and a match survives any
number of additional keys, in any object at any depth. It never survives another length of an array:
values that have arrays of different lengths in the same place do not match, and changing the length
of an array in a value that matches ends the match unless nothing at all is wanted in this place. -/
theorem isMatch_preorder :
    (∀ a : Json, a.DistinctKeys → a.isMatch a = true) ∧
    (∀ a b c : Json, a.isMatch b = true → b.isMatch c = true → a.isMatch c = true) ∧
    (∀ node payload : Json, payload.DistinctKeys → node.field? "const" = some payload →
      (∀ target, node.field? "$ref" ≠ some (.string target)) →
        ∀ ds guard, Declaration.accepts ds guard (.ofSchema node) payload = true) ∧
    (∀ a b c : Json, a.DistinctKeys → a.isMatch b = true → ReflTransGen GainsKey b c →
      a.isMatch c = true) ∧
    (∀ (a b : Json) (path : List Step) (items items' : List Json),
      a.at? path = some (.array items) → b.at? path = some (.array items') →
        items.length ≠ items'.length → a.isMatch b = false) ∧
    ∀ (a b c : Json) (path : List Step) (items items' : List Json), a.DistinctKeys →
      a.isMatch b = true → b.at? path = some (.array items) → items.length ≠ items'.length →
        replace? path (.array items') b = some c → (a.isMatch c = true ↔ a.at? path = none) := by
  simp only [isMatch_iff_matches, ← Bool.not_eq_true]
  refine ⟨fun a ↦ Matches.refl, fun a b c ↦ Matches.trans, fun node payload ↦ accepts_const,
    fun a b c ↦ Matches.gainsKeys, ?_, fun a b c path items items' ↦ matches_resized_iff⟩
  exact fun a b path items items' ha hb hlen h ↦ hlen (h.length_at?_eq ha hb)

/-- A list of two items under a key is matched with another key beside it, but not by three
items. -/
theorem isMatch_pair :
    let pair : Json := .object [("k", .array [.scalar (.number (.integer 1)), .null])]
    let more : Json := .object [("z", .null), ("k", .array [.scalar (.number (.integer 1)), .null])]
    let longer : Json := .object [("z", .null), ("k", .array [.null, .null, .null])]
    pair.isMatch more = true ∧ pair.isMatch longer = false := by
  intro pair more longer
  have hpair : pair.DistinctKeys := by
    refine .object (by decide) (List.forall_mem_singleton.2 (.array ?_))
    simp [DistinctKeys.scalar]
  have hself : pair.isMatch pair = true := isMatch_preorder.1 pair hpair
  have hmore : pair.isMatch more = true :=
    isMatch_preorder.2.2.2.1 pair pair more hpair hself
      (.single ⟨[], [], "z", .null, _, by decide, rfl, rfl⟩)
  exact ⟨hmore, isMatch_preorder.2.2.2.2.1 pair longer [.key "k"] _ _ rfl rfl (by decide)⟩

end SchemaCodec.Json
