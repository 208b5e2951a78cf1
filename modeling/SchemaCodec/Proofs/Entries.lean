import Mathlib.Data.List.Nodup
import SchemaCodec.Entries

/-!
# Laws of ordered entries

Reading after writing, and what a whole run of writes leaves behind: for every key the last value
that was written, or what was there before (`get?_foldl_insert_eq_some_iff`). Keys stay distinct.
-/

namespace SchemaCodec.Entries

variable {κ α β : Type} [DecidableEq κ] {key key' : κ} {value : α} {entries : Entries κ α}

/-- Inserting changes the lookup of the inserted key only. -/
theorem get?_insert :
    get? key (insert key' value entries) = if key' = key then some value else get? key entries := by
  induction entries with
  | nil => rfl
  | cons p rest ih =>
    obtain ⟨k, a⟩ := p
    by_cases hk : k = key'
    · subst hk
      by_cases hkey : k = key <;> simp [insert, get?, hkey]
    · rw [insert, if_neg hk, get?, get?, ih]
      by_cases hkey : k = key
      · subst hkey
        simp [Ne.symm hk]
      · simp [hkey]

theorem get?_isSome_iff : (get? key entries).isSome ↔ key ∈ keys entries := by
  induction entries with
  | nil => simp [get?]
  | cons p rest ih =>
    obtain ⟨k, a⟩ := p
    by_cases hk : k = key
    · simp [get?, hk]
    · rw [get?, if_neg hk, ih, keys_cons, List.mem_cons]
      simp [Ne.symm hk]

omit [DecidableEq κ] in
theorem keys_append_singleton : keys (entries ++ [(key, value)]) = keys entries ++ [key] :=
  List.map_append

/-- A lookup passes over entries that do not have the key. -/
theorem get?_append_of_not_mem {before : Entries κ α} (h : key ∉ keys before) :
    get? key (before ++ entries) = get? key entries := by
  induction before with
  | nil => rfl
  | cons p rest ih =>
    obtain ⟨k, a⟩ := p
    obtain ⟨hne, hrest⟩ := not_or.1 (mt List.mem_cons.2 h)
    rw [List.cons_append, get?, if_neg (Ne.symm hne), ih hrest]

/-- A pair with another key makes no difference, wherever it stands. -/
theorem get?_append_cons_of_ne {before : Entries κ α} (h : key' ≠ key) :
    get? key (before ++ (key', value) :: entries) = get? key (before ++ entries) := by
  induction before with
  | nil => simp [get?, h]
  | cons p rest ih =>
    obtain ⟨k, a⟩ := p
    simp only [List.cons_append, get?, ih]

/-- With distinct keys, reading a key finds its only pair. -/
theorem get?_eq_some_iff_mem (hnd : (keys entries).Nodup) :
    get? key entries = some value ↔ (key, value) ∈ entries := by
  refine ⟨mem_of_get?_eq_some, fun hmem ↦ ?_⟩
  induction entries with
  | nil => exact absurd hmem List.not_mem_nil
  | cons p rest ih =>
    obtain ⟨k, a⟩ := p
    obtain ⟨hk, hrest⟩ := List.nodup_cons.1 hnd
    rcases List.mem_cons.1 hmem with heq | hmem
    · obtain ⟨rfl, rfl⟩ := Prod.mk.inj heq
      simp [get?]
    · have hne : k ≠ key := by
        rintro rfl
        exact hk (List.mem_map.2 ⟨_, hmem, rfl⟩)
      rw [get?, if_neg hne]
      exact ih hrest hmem

/-- With distinct keys, the order of the pairs makes no difference. -/
theorem get?_eq_of_perm {entries' : Entries κ α} (hnd : (keys entries).Nodup)
    (h : entries'.Perm entries) : get? key entries' = get? key entries := by
  have hnd' : (keys entries').Nodup := (h.map Prod.fst).nodup_iff.2 hnd
  ext value
  rw [get?_eq_some_iff_mem hnd', get?_eq_some_iff_mem hnd, h.mem_iff]

/-- A write adds a key that was missing at the end, and otherwise leaves the keys alone. -/
theorem keys_insert :
    keys (insert key value entries) =
      if key ∈ keys entries then keys entries else keys entries ++ [key] := by
  induction entries with
  | nil => rfl
  | cons p rest ih =>
    obtain ⟨k, a⟩ := p
    by_cases hk : k = key
    · simp [insert, hk]
    · rw [insert, if_neg hk, keys_cons, ih, keys_cons]
      by_cases hmem : key ∈ keys rest <;> simp [hmem, Ne.symm hk]

/-- Inserting keeps keys distinct: it replaces where the key is there. -/
theorem nodup_keys_insert (h : (keys entries).Nodup) : (keys (insert key value entries)).Nodup := by
  rw [keys_insert]
  split
  · exact h
  · next hmem =>
    rw [List.nodup_append]
    refine ⟨h, List.nodup_singleton key, fun a ha b hb ↦ ?_⟩
    rw [List.mem_singleton] at hb
    rintro rfl
    exact hmem (hb ▸ ha)

/-- A write to a key that is left out afterwards could as well have been omitted. -/
theorem filter_insert (keep : κ → Bool) :
    (insert key value entries).filter (fun p ↦ keep p.1) =
      if keep key then insert key value (entries.filter fun p ↦ keep p.1)
      else entries.filter fun p ↦ keep p.1 := by
  induction entries with
  | nil => cases h : keep key <;> simp [insert, h]
  | cons p rest ih =>
    obtain ⟨k, a⟩ := p
    by_cases hk : k = key
    · subst hk
      cases h : keep k <;> simp [insert, h]
    · rw [insert, if_neg hk, List.filter_cons, ih, List.filter_cons]
      cases h : keep k <;> cases h' : keep key <;> simp [insert, hk]

/-! ### Runs of writes -/

section Fold

variable {k : β → κ} {f : β → α} {bs : List β}

/-- A run of insertions keeps keys distinct. -/
theorem nodup_keys_foldl_insert (h : (keys entries).Nodup) :
    (keys (bs.foldl (fun e b ↦ insert (k b) (f b) e) entries)).Nodup := by
  induction bs generalizing entries with
  | nil => exact h
  | cons b bs ih => exact ih (nodup_keys_insert h)

/-- A run of writes appends the keys that were missing, each at its first write. -/
theorem keys_foldl_insert :
    keys (bs.foldl (fun e b ↦ insert (k b) (f b) e) entries) =
      keys entries ++ ((bs.map k).removeAll (keys entries)).eraseDups := by
  induction bs generalizing entries with
  | nil => simp [List.removeAll]
  | cons b bs ih =>
    rw [List.foldl_cons, ih, keys_insert, List.map_cons, List.cons_removeAll]
    by_cases hmem : k b ∈ keys entries
    · simp [hmem]
    · have hrest : (bs.map k).removeAll (keys entries ++ [k b]) =
          ((bs.map k).removeAll (keys entries)).filter fun x ↦ !x == k b := by
        simp [List.removeAll, List.filter_filter, Bool.and_comm, beq_eq_decide]
      simp [hmem, hrest, List.eraseDups_cons]

/-- Insertions of keys that are filtered out might as well be left out. -/
theorem filter_foldl_insert (keep : κ → Bool) :
    (bs.foldl (fun e b ↦ insert (k b) (f b) e) entries).filter (fun p ↦ keep p.1) =
      (bs.filter fun b ↦ keep (k b)).foldl (fun e b ↦ insert (k b) (f b) e)
        (entries.filter fun p ↦ keep p.1) := by
  induction bs generalizing entries with
  | nil => rfl
  | cons b bs ih =>
    rw [List.foldl_cons, ih, filter_insert, List.filter_cons]
    split <;> rfl

/-- If anything in a list has a property, then something is the last to have it. -/
theorem exists_last {P : β → Prop} (h : ∃ b ∈ bs, P b) :
    ∃ before c after, bs = before ++ c :: after ∧ (∀ d ∈ after, ¬P d) ∧ P c := by
  induction bs with
  | nil =>
    obtain ⟨b, hb, -⟩ := h
    exact absurd hb List.not_mem_nil
  | cons a bs ih =>
    by_cases hlater : ∃ c ∈ bs, P c
    · obtain ⟨before, c, after, rfl, hc⟩ := ih hlater
      exact ⟨a :: before, c, after, rfl, hc⟩
    · obtain ⟨b, hb, hPb⟩ := h
      rcases List.mem_cons.1 hb with rfl | hb
      · exact ⟨[], b, bs, rfl, fun d hd hPd ↦ hlater ⟨d, hd, hPd⟩, hPb⟩
      · exact absurd ⟨b, hb, hPb⟩ hlater

/-- **The last write wins.** -/
theorem get?_foldl_insert_eq_some_iff :
    get? key (bs.foldl (fun e b ↦ insert (k b) (f b) e) entries) = some value ↔
      (∃ before b after, bs = before ++ b :: after ∧ (∀ c ∈ after, k c ≠ key) ∧ k b = key ∧
          f b = value) ∨
        (∀ b ∈ bs, k b ≠ key) ∧ get? key entries = some value := by
  induction bs generalizing entries with
  | nil => simp
  | cons b bs ih =>
    rw [List.foldl_cons, ih, get?_insert]
    constructor
    · rintro (⟨before, c, after, rfl, h⟩ | ⟨hnone, hget⟩)
      · exact .inl ⟨b :: before, c, after, rfl, h⟩
      · by_cases hb : k b = key
        · rw [if_pos hb, Option.some_inj] at hget
          exact .inl ⟨[], b, bs, rfl, hnone, hb, hget⟩
        · rw [if_neg hb] at hget
          exact .inr ⟨List.forall_mem_cons.2 ⟨hb, hnone⟩, hget⟩
    · rintro (⟨before, c, after, hsplit, hafter, hc, hf⟩ | ⟨hnone, hget⟩)
      · cases before with
        | nil =>
          obtain ⟨rfl, rfl⟩ := List.cons.inj hsplit
          exact .inr ⟨hafter, by rw [if_pos hc, hf]⟩
        | cons d before =>
          obtain ⟨rfl, rfl⟩ := List.cons.inj hsplit
          exact .inl ⟨before, c, after, rfl, hafter, hc, hf⟩
      · obtain ⟨hb, hnone⟩ := List.forall_mem_cons.1 hnone
        exact .inr ⟨hnone, by rw [if_neg hb, hget]⟩

end Fold

end SchemaCodec.Entries
