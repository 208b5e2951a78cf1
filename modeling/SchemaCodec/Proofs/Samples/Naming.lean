import SchemaCodec.Proofs.Text.Decomposition
import SchemaCodec.Samples

/-!
# The names of samples

A file is a sample if its name ends in `.json`. What is left of the name may end in `.invalid`,
which asks for a rejection; the text before the first full stop of the rest is the declaration.
`Expects` states this on the name itself, and `ofFileName?_eq_some_iff` says that names are read
accordingly. The samples of a directory are its entries with such names, each once, in the order of
the names (`map_fileName_ofEntries_perm`, `pairwise_fileName_ofEntries`).
-/

namespace SchemaCodec.Samples

/-- `name` is what stands before the first full stop of `text`, or all of it if there is none. -/
def FirstSegment (text name : String) : Prop :=
  '.' ∉ name.toList ∧ (text = name ∨ ∃ rest, text = name ++ "." ++ rest)

/-- The verdict that a file name asks for: `Expects fileName declaration valid`. -/
inductive Expects : String → String → Bool → Prop
  | accepted {stem declaration : String} (hplain : ∀ base, stem ≠ base ++ ".invalid")
      (h : FirstSegment stem declaration) : Expects (stem ++ ".json") declaration true
  | rejected {base declaration : String} (h : FirstSegment base declaration) :
      Expects (base ++ ".invalid" ++ ".json") declaration false

/-- Names that make a file a sample. -/
def IsSampleName (name : String) : Prop :=
  ∃ stem, name = stem ++ ".json"

/-- Only sample names say what to expect. -/
theorem Expects.isSampleName {fileName declaration : String} {valid : Bool}
    (h : Expects fileName declaration valid) : IsSampleName fileName := by
  cases h with
  | accepted => exact ⟨_, rfl⟩
  | rejected => exact ⟨_, rfl⟩

/-! ### Suffixes and segments -/

/-- A suffix is dropped where it is there. -/
theorem dropSuffix?_eq_some_iff {suffix text stem : String} :
    dropSuffix? suffix text = some stem ↔ text = stem ++ suffix := by
  rw [dropSuffix?]
  constructor
  · intro h
    split at h
    · next hdrop =>
      have hsplit := List.take_append_drop (text.toList.length - suffix.toList.length) text.toList
      rw [hdrop] at hsplit
      rw [← Option.some_inj.1 h, ← String.toList_inj, String.toList_append, String.toList_ofList]
      exact hsplit.symm
    · exact absurd h (by simp)
  · rintro rfl
    simp

/-- Nothing is dropped where the suffix is missing. -/
theorem dropSuffix?_eq_none_iff {suffix text : String} :
    dropSuffix? suffix text = none ↔ ∀ stem, text ≠ stem ++ suffix := by
  rw [Option.eq_none_iff_forall_ne_some]
  exact forall_congr' fun stem ↦ not_congr dropSuffix?_eq_some_iff

instance : DecidablePred IsSampleName := fun name ↦
  decidable_of_iff ((dropSuffix? ".json" name).isSome = true) (by
    rw [Option.isSome_iff_exists]
    exact exists_congr fun stem ↦ dropSuffix?_eq_some_iff)

/-- The first segment is what stands before the first dot. -/
theorem firstSegment_iff {text name : String} :
    FirstSegment text name ↔ String.ofList (text.toList.takeWhile (· != '.')) = name := by
  rw [← String.toList_inj, String.toList_ofList, Text.takeWhile_ne_eq_iff, FirstSegment]
  refine and_congr_right fun _ ↦ or_congr String.toList_inj.symm ?_
  constructor
  · rintro ⟨rest, rfl⟩
    exact ⟨rest.toList, by simp⟩
  · rintro ⟨rest, hrest⟩
    refine ⟨String.ofList rest, ?_⟩
    rw [← String.toList_inj, hrest]
    simp

/-! ### Samples -/

/-- **A name is read as the sample that it asks for.** -/
theorem ofFileName?_eq_some_iff {fileName : String} {s : Sample} :
    Sample.ofFileName? fileName = some s ↔
      s.fileName = fileName ∧ Expects fileName s.declaration s.valid := by
  obtain ⟨name, declaration, valid⟩ := s
  rw [Sample.ofFileName?, Option.map_eq_some_iff]
  constructor
  · rintro ⟨stem, hstem, h⟩
    obtain rfl := dropSuffix?_eq_some_iff.1 hstem
    rcases hbase : dropSuffix? ".invalid" stem with - | base
    · simp only [hbase, Sample.mk.injEq] at h
      obtain ⟨rfl, hsegment, rfl⟩ := h
      exact ⟨rfl, .accepted (dropSuffix?_eq_none_iff.1 hbase) (firstSegment_iff.2 hsegment)⟩
    · simp only [hbase, Sample.mk.injEq] at h
      obtain ⟨rfl, hsegment, rfl⟩ := h
      obtain rfl := dropSuffix?_eq_some_iff.1 hbase
      exact ⟨rfl, .rejected (firstSegment_iff.2 hsegment)⟩
  · rintro ⟨rfl, h⟩
    cases h with
    | @accepted stem _ hplain h =>
      refine ⟨stem, dropSuffix?_eq_some_iff.2 rfl, ?_⟩
      simp only [dropSuffix?_eq_none_iff.2 hplain, firstSegment_iff.1 h]
    | @rejected base _ h =>
      refine ⟨base ++ ".invalid", dropSuffix?_eq_some_iff.2 rfl, ?_⟩
      simp only [dropSuffix?_eq_some_iff.2 rfl, firstSegment_iff.1 h]

theorem expects_of_ofFileName? {fileName declaration : String} {valid : Bool}
    (h : Sample.ofFileName? fileName = some ⟨fileName, declaration, valid⟩) :
    Expects fileName declaration valid :=
  (ofFileName?_eq_some_iff.1 h).2

/-- Exactly the sample names are taken for samples. -/
theorem isSome_ofFileName? (fileName : String) :
    (Sample.ofFileName? fileName).isSome = decide (IsSampleName fileName) := by
  rw [Bool.eq_iff_iff, decide_eq_true_iff, Sample.ofFileName?, Option.isSome_map,
    Option.isSome_iff_exists]
  exact exists_congr fun stem ↦ dropSuffix?_eq_some_iff

/-- Every sample name asks for one verdict. -/
theorem exists_expects {fileName : String} (h : IsSampleName fileName) :
    ∃ declaration valid, Expects fileName declaration valid := by
  have hsome := isSome_ofFileName? fileName
  rw [decide_eq_true h, Option.isSome_iff_exists] at hsome
  obtain ⟨s, hs⟩ := hsome
  exact ⟨s.declaration, s.valid, (ofFileName?_eq_some_iff.1 hs).2⟩

/-- A file name says one thing. -/
theorem Expects.unique {fileName declaration declaration' : String} {valid valid' : Bool}
    (h : Expects fileName declaration valid) (h' : Expects fileName declaration' valid') :
    declaration = declaration' ∧ valid = valid' := by
  have hs : Sample.ofFileName? fileName = some ⟨fileName, declaration, valid⟩ :=
    ofFileName?_eq_some_iff.2 ⟨rfl, h⟩
  have hs' : Sample.ofFileName? fileName = some ⟨fileName, declaration', valid'⟩ :=
    ofFileName?_eq_some_iff.2 ⟨rfl, h'⟩
  exact (Sample.mk.inj (Option.some_inj.1 (hs.symm.trans hs'))).2

/-! ### The samples of a directory -/

variable {names : List String}

/-- The samples of a directory are its entries with a sample name, with what that name says. -/
theorem mem_ofEntries_iff {s : Sample} :
    s ∈ Sample.ofEntries names ↔
      s.fileName ∈ names ∧ Expects s.fileName s.declaration s.valid := by
  rw [Sample.ofEntries, List.mem_mergeSort, List.mem_filterMap]
  constructor
  · rintro ⟨fileName, hmem, hs⟩
    obtain ⟨rfl, hexpects⟩ := ofFileName?_eq_some_iff.1 hs
    exact ⟨hmem, hexpects⟩
  · rintro ⟨hmem, hexpects⟩
    exact ⟨s.fileName, hmem, ofFileName?_eq_some_iff.2 ⟨rfl, hexpects⟩⟩

/-- Every entry with the name of a sample is one. -/
theorem exists_mem_ofEntries {name : String} (hmem : name ∈ names) (h : IsSampleName name) :
    ∃ s ∈ Sample.ofEntries names, s.fileName = name := by
  obtain ⟨declaration, valid, hexpects⟩ := exists_expects h
  exact ⟨⟨name, declaration, valid⟩, mem_ofEntries_iff.2 ⟨hmem, hexpects⟩, rfl⟩

theorem map_fileName_filterMap (names : List String) :
    (names.filterMap Sample.ofFileName?).map Sample.fileName =
      names.filter (IsSampleName ·) := by
  induction names with
  | nil => rfl
  | cons name names ih =>
    rw [List.filterMap_cons, List.filter_cons, ← isSome_ofFileName?]
    rcases hs : Sample.ofFileName? name with - | s
    · simpa using ih
    · simp [ih, (ofFileName?_eq_some_iff.1 hs).1]

/-- **The samples of a directory are its entries with the names of samples,** -/
theorem map_fileName_ofEntries_perm (names : List String) :
    ((Sample.ofEntries names).map Sample.fileName).Perm (names.filter (IsSampleName ·)) := by
  rw [← map_fileName_filterMap]
  exact (List.mergeSort_perm _ _).map Sample.fileName

/-- **in the order of these names.** -/
theorem pairwise_fileName_ofEntries (names : List String) :
    ((Sample.ofEntries names).map Sample.fileName).Pairwise (· ≤ ·) := by
  rw [List.pairwise_map, Sample.ofEntries]
  refine (List.pairwise_mergeSort ?_ ?_ _).imp of_decide_eq_true
  · intro a b c hab hbc
    exact decide_eq_true (String.le_trans (of_decide_eq_true hab) (of_decide_eq_true hbc))
  · intro a b
    simpa using String.le_total a.fileName b.fileName

end SchemaCodec.Samples
