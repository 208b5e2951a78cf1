import SchemaCodec.Proofs.Acceptance.Guard
import SchemaCodec.Proofs.Command.Run
import SchemaCodec.Proofs.Samples.Naming

/-!
# The verdict of a sample suite

A suite is run on files that stay what they are, so an access to them is a function of the path
(`FileAccess Id`); `agrees_run` says that this covers the runs on files in memory. What is asked of
a suite is stated on these functions: `Loads` that everything up to the listing of the directory
succeeds, `Holds` that an entry holds a value, and `Passes` that the verdict on an entry is the one
that its name asks for. `Says` spells out the line that a verdict gives.

A run goes through the samples and stops at the first that cannot be read (`judge_cases`). So it
succeeds exactly if everything loads and every sample passes, and if all samples can be read its
report has a line for each of them and their numbers (`Suite.run_success_iff_and_report`), whatever
libraries read the settings, the document and the samples.
-/

namespace SchemaCodec

namespace Samples

/-! ### What is asked of a suite -/

/-- Everything up to the listing of the directory succeeds. -/
structure Loads (readers : Readers) (files : FileAccess Id) (suite : Suite) (c : Compilation)
    (names : List String) : Prop where
  /-- The settings and the document can be read, and the document compiles. -/
  compiles : ∃ settings document, (files.loadSettings? readers suite.settings).run = .ok settings ∧
    (files.readDocument readers suite.schema).run = .ok document ∧ compile settings document = .ok c
  /-- The directory has these entries. -/
  lists : (files.list suite.directory).run = .ok names

/-- An entry of a directory can be read, and its text is that of a value. -/
def Holds (readers : Readers) (files : FileAccess Id) (directory name : String) (value : Json) :
    Prop :=
  ∃ text, (files.read (Path.join directory name)).run = .ok text ∧
    readers.document .json text = .ok value

/-- The declaration that an entry is about gives the expected answer. A declaration that does not
exist gives no answer. -/
def Passes (readers : Readers) (files : FileAccess Id) (c : Compilation) (directory name : String) :
    Prop :=
  ∃ value declaration valid, Holds readers files directory name value ∧
    Expects name declaration valid ∧ c.check? declaration value = some valid

/-- A sample that passes was read. -/
theorem Passes.holds {readers : Readers} {files : FileAccess Id} {c : Compilation}
    {directory name : String} (h : Passes readers files c directory name) :
    ∃ value, Holds readers files directory name value := by
  obtain ⟨value, -, -, hvalue, -⟩ := h
  exact ⟨value, hvalue⟩

/-- The verdict on a sample. -/
def Judged (readers : Readers) (files : FileAccess Id) (c : Compilation) (directory : String)
    (p : Sample × Option Bool) : Prop :=
  Expects p.1.fileName p.1.declaration p.1.valid ∧
    ∃ value, Holds readers files directory p.1.fileName value ∧ p.2 = c.check? p.1.declaration value

variable {readers : Readers} {files : FileAccess Id} {suite : Suite} {c : Compilation}
  {directory : String} {names : List String} {judged : List (Sample × Option Bool)}

/-- A file holds one value. -/
theorem Holds.unique {name : String} {value value' : Json}
    (h : Holds readers files directory name value)
    (h' : Holds readers files directory name value') : value = value' := by
  obtain ⟨text, htext, hvalue⟩ := h
  obtain ⟨text', htext', hvalue'⟩ := h'
  obtain rfl := Except.ok.inj (htext.symm.trans htext')
  exact Except.ok.inj (hvalue.symm.trans hvalue')

/-- A judged sample passes if its verdict is the expected one. -/
theorem Judged.passes_iff {p : Sample × Option Bool} (h : Judged readers files c directory p) :
    Passes readers files c directory p.1.fileName ↔ p.2 = some p.1.valid := by
  obtain ⟨hexpects, value, hholds, hverdict⟩ := h
  constructor
  · rintro ⟨value', declaration, valid, hholds', hexpects', hcheck⟩
    obtain ⟨rfl, rfl⟩ := hexpects'.unique hexpects
    rw [hverdict, hholds.unique hholds', hcheck]
  · intro h
    exact ⟨value, p.1.declaration, p.1.valid, hholds, hexpects, hverdict ▸ h⟩

/-- A suite loads in one way. -/
theorem Loads.unique {c' : Compilation} {names' : List String}
    (h : Loads readers files suite c names)
    (h' : Loads readers files suite c' names') : c = c' ∧ names = names' := by
  obtain ⟨⟨settings, document, hsettings, hdocument, hc⟩, hnames⟩ := h
  obtain ⟨⟨settings', document', hsettings', hdocument', hc'⟩, hnames'⟩ := h'
  obtain rfl := Except.ok.inj (hsettings.symm.trans hsettings')
  obtain rfl := Except.ok.inj (hdocument.symm.trans hdocument')
  exact ⟨Except.ok.inj (hc.symm.trans hc'), Except.ok.inj (hnames.symm.trans hnames')⟩

/-! ### Going through the samples -/

/-- Samples are judged one after the other, or the run stops at one that cannot be read. -/
theorem judge_cases (readers : Readers) (files : FileAccess Id) (c : Compilation)
    (directory : String) {samples : List Sample}
    (h : ∀ s ∈ samples, Expects s.fileName s.declaration s.valid) :
    (∃ verdicts, (judge readers files c directory samples).run = (verdicts, none) ∧
        verdicts.map Prod.fst = samples ∧ ∀ p ∈ verdicts, Judged readers files c directory p) ∨
      ∃ verdicts stopped, (judge readers files c directory samples).run = (verdicts, some stopped) ∧
        ∃ s ∈ samples, ∀ value, ¬Holds readers files directory s.fileName value := by
  induction samples with
  | nil => exact .inl ⟨[], rfl, rfl, List.forall_mem_nil _⟩
  | cons s samples ih =>
    obtain ⟨hs, hsamples⟩ := List.forall_mem_cons.1 h
    rw [judge, Id.run_bind]
    rcases hread : (files.read (Path.join directory s.fileName)).run with fault | text
    · refine .inr ⟨_, _, rfl, s, List.mem_cons_self, ?_⟩
      rintro value ⟨text, htext, -⟩
      exact absurd (hread.symm.trans htext) (by simp)
    · rcases hparse : readers.document .json text with cause | value
      · simp only [hparse]
        refine .inr ⟨_, _, rfl, s, List.mem_cons_self, ?_⟩
        rintro value ⟨text', htext', hvalue⟩
        obtain rfl := Except.ok.inj (hread.symm.trans htext')
        exact absurd (hparse.symm.trans hvalue) (by simp)
      · simp only [hparse, Id.run_bind]
        rcases ih hsamples with
          ⟨verdicts, hrun, hmap, hjudged⟩ | ⟨verdicts, stopped, hrun, s', hs', hnot⟩
        · rw [hrun]
          have hholds : Holds readers files directory s.fileName value := ⟨text, hread, hparse⟩
          exact .inl ⟨_, rfl, by simp [hmap],
            List.forall_mem_cons.2 ⟨⟨hs, value, hholds, rfl⟩, hjudged⟩⟩
        · rw [hrun]
          exact .inr ⟨_, _, rfl, s', List.mem_cons_of_mem _ hs', hnot⟩

/-! ### The report -/

/-- How many verdicts are not the expected ones. -/
def mismatches (verdicts : List (Sample × Option Bool)) : ℕ :=
  verdicts.countP fun p ↦ decide (p.2 ≠ some p.1.valid)

/-- The line that a sample gets for the verdict on it. -/
inductive Says (s : Sample) : Option Bool → String → Prop
  | expected : Says s (some s.valid) ("✅ " ++ s.fileName)
  | undeclared :
      Says s none ("❌ " ++ s.fileName ++ ": no declaration `" ++ s.declaration ++ "`")
  | accepted (h : s.valid = false) :
      Says s (some true) ("❌ " ++ s.fileName ++ ": unexpectedly accepted")
  | rejected (h : s.valid = true) :
      Says s (some false) ("❌ " ++ s.fileName ++ ": unexpectedly rejected")

/-- The lines behind those of the samples: the totals, and an error if there are mismatches. -/
def closingLines (samples failed : ℕ) : List String :=
  (toString samples ++ " samples, " ++ toString failed ++ " failed") ::
    if failed = 0 then []
    else ["Error: " ++ toString failed ++ " sample(s) did not match expectations"]

/-- The reported line says what was found about the sample. -/
theorem says_line (s : Sample) (verdict : Option Bool) : Says s verdict (s.line verdict) := by
  rcases verdict with - | accepted
  · exact .undeclared
  · rw [Sample.line]
    split_ifs with hexpected haccepted
    · exact hexpected ▸ .expected
    · subst haccepted
      rw [String.append_assoc]
      exact .accepted (Bool.eq_false_of_not_eq_true (Ne.symm hexpected))
    · rw [Bool.not_eq_true] at haccepted
      subst haccepted
      rw [String.append_assoc]
      exact .rejected (Bool.eq_true_of_not_eq_false (Ne.symm hexpected))

/-- A sample with the expected verdict gets a plain line. -/
theorem Says.eq_of_expected {s : Sample} {line : String} (h : Says s (some s.valid) line) :
    line = "✅ " ++ s.fileName := by
  obtain ⟨fileName, declaration, valid⟩ := s
  generalize hverdict : some valid = verdict at h
  cases h with
  | expected => rfl
  | undeclared => exact absurd hverdict (Option.some_ne_none valid)
  | accepted h => exact absurd (h.symm.trans (Option.some_inj.1 hverdict)) (by decide)
  | rejected h => exact absurd (h.symm.trans (Option.some_inj.1 hverdict)) (by decide)

/-- The lines of samples with the expected verdicts name them. -/
theorem lines_eq_of_expected {lines : List String} (hexpected : ∀ p ∈ judged, p.2 = some p.1.valid)
    (h : List.Forall₂ (fun p line ↦ Says p.1 p.2 line) judged lines) :
    lines = (judged.map (·.1.fileName)).map ("✅ " ++ ·) := by
  induction h with
  | nil => rfl
  | cons hline _ ih =>
    obtain ⟨hp, hrest⟩ := List.forall_mem_cons.1 hexpected
    rw [hp] at hline
    rw [hline.eq_of_expected, ih hrest, List.map_cons, List.map_cons]

/-- Nothing is counted as failed when every verdict is the expected one. -/
theorem mismatches_eq_zero_iff : mismatches judged = 0 ↔ ∀ p ∈ judged, p.2 = some p.1.valid := by
  rw [mismatches, List.countP_eq_zero]
  simp

theorem countText_eq (n : ℕ) : countText n = toString n :=
  rfl

/-- A report has a line for each sample and then the totals. -/
theorem ofVerdicts_eq (verdicts : List (Sample × Option Bool)) :
    Report.ofVerdicts verdicts =
      ⟨verdicts.map (fun p ↦ p.1.line p.2) ++ closingLines verdicts.length (mismatches verdicts),
        decide (mismatches verdicts = 0)⟩ := by
  have hcount : (verdicts.countP fun p ↦ !p.1.passes p.2) = mismatches verdicts := by
    simp [mismatches, Sample.passes, beq_eq_decide]
  simp only [Report.ofVerdicts, hcount, countText_eq, errorLine, ← String.append_assoc]
  split
  · next h => simp [closingLines, h]
  · next h => simp [closingLines, h]

/-- A report is a success when every verdict is the expected one. -/
theorem success_ofVerdicts_iff :
    (Report.ofVerdicts judged).success = true ↔ ∀ p ∈ judged, p.2 = some p.1.valid := by
  rw [ofVerdicts_eq, decide_eq_true_iff, mismatches_eq_zero_iff]

/-! ### Runs -/

/-- What a suite that loads reports: verdicts and totals, or verdicts up to the sample that could
not be read. -/
theorem run_of_loads (h : Loads readers files suite c names) :
    (suite.run readers files).run =
      match (judge readers files c suite.directory (Sample.ofEntries names)).run with
      | (verdicts, none) => Report.ofVerdicts verdicts
      | (verdicts, some stopped) =>
        ⟨verdicts.map (fun p ↦ p.1.line p.2) ++ [errorLine stopped], false⟩ := by
  obtain ⟨⟨settings, document, hsettings, hdocument, hc⟩, hnames⟩ := h
  rw [Suite.run]
  simp only [Id.run_bind, hsettings, FileAccess.compileDocument, hdocument, hc, hnames, Id.run_pure]
  rcases (judge readers files c suite.directory (Sample.ofEntries names)).run with
    ⟨verdicts, - | stopped⟩ <;> rfl

/-- Nothing succeeds that does not load. -/
theorem exists_loads_of_success (h : (suite.run readers files).run.success = true) :
    ∃ c names, Loads readers files suite c names := by
  rw [Suite.run] at h
  simp only [Id.run_bind, FileAccess.compileDocument] at h
  rcases hsettings : (files.loadSettings? readers suite.settings).run with failure | settings
  · simp [hsettings] at h
  rcases hdocument : (files.readDocument readers suite.schema).run with failure | document
  · simp [hsettings, hdocument] at h
  rcases hc : compile settings document with error | c
  · simp [hsettings, hdocument, hc] at h
  rcases hnames : (files.list suite.directory).run with fault | names
  · simp [hsettings, hdocument, hc, hnames] at h
  exact ⟨c, names, ⟨settings, document, hsettings, hdocument, hc⟩, hnames⟩

/-- Once everything is loaded, all samples are judged, or one of them cannot be read. -/
theorem run_cases (h : Loads readers files suite c names) :
    (∃ judged, judged.map Prod.fst = Sample.ofEntries names ∧
        (∀ p ∈ judged, Judged readers files c suite.directory p) ∧
        (suite.run readers files).run = Report.ofVerdicts judged) ∨
      (suite.run readers files).run.success = false ∧
        ∃ name ∈ names, IsSampleName name ∧
          ∀ value, ¬Holds readers files suite.directory name value := by
  have hexpects (s : Sample) (hs : s ∈ Sample.ofEntries names) := (mem_ofEntries_iff.1 hs).2
  rw [run_of_loads h]
  rcases judge_cases readers files c suite.directory hexpects with
    ⟨judged, hrun, hmap, hjudged⟩ | ⟨verdicts, stopped, hrun, s, hs, hnot⟩
  · rw [hrun]
    exact .inl ⟨judged, hmap, hjudged, rfl⟩
  · rw [hrun]
    obtain ⟨hmem, hexpects⟩ := mem_ofEntries_iff.1 hs
    exact .inr ⟨rfl, s.fileName, hmem, hexpects.isSampleName, hnot⟩

/-- If all samples can be read, all are judged. -/
theorem exists_judged_of_holds (h : Loads readers files suite c names)
    (hholds : ∀ name ∈ names, IsSampleName name →
      ∃ value, Holds readers files suite.directory name value) :
    ∃ judged, judged.map Prod.fst = Sample.ofEntries names ∧
      (∀ p ∈ judged, Judged readers files c suite.directory p) ∧
      (suite.run readers files).run = Report.ofVerdicts judged := by
  refine (run_cases h).resolve_right ?_
  rintro ⟨-, name, hmem, hsample, hnot⟩
  obtain ⟨value, hvalue⟩ := hholds name hmem hsample
  exact hnot value hvalue

/-- The verdicts are the expected ones if all entries pass. -/
theorem forall_passes_iff (hmap : judged.map Prod.fst = Sample.ofEntries names)
    (hjudged : ∀ p ∈ judged, Judged readers files c directory p) :
    (∀ name ∈ names, IsSampleName name → Passes readers files c directory name) ↔
      ∀ p ∈ judged, p.2 = some p.1.valid := by
  constructor
  · intro hpass p hp
    have hs : p.1 ∈ Sample.ofEntries names := hmap ▸ List.mem_map_of_mem hp
    obtain ⟨hmem, hexpects⟩ := mem_ofEntries_iff.1 hs
    exact (hjudged p hp).passes_iff.1 (hpass _ hmem hexpects.isSampleName)
  · intro hpass name hname hsample
    obtain ⟨s, hs, rfl⟩ := exists_mem_ofEntries hname hsample
    obtain ⟨p, hp, rfl⟩ := List.mem_map.1 (hmap ▸ hs)
    exact (hjudged p hp).passes_iff.2 (hpass p hp)

/-- **The verdict of a suite is exact, and so is its report.** A run succeeds if and only if the
settings and the document can be read, the document compiles, the directory can be listed, and every
entry whose name ends in `.json` holds a value on which the declaration named there gives the
expected answer. Whenever all these entries hold values, the report has a line for each of them that
says how its verdict compares with the expected one, in the order of the file names, and then the
number of entries and that of unexpected verdicts. -/
theorem Suite.run_success_iff_and_report (readers : Readers) (files : FileAccess Id)
    (suite : Suite) :
    ((suite.run readers files).run.success = true ↔
      ∃ c names, Loads readers files suite c names ∧
        ∀ name ∈ names, IsSampleName name → Passes readers files c suite.directory name) ∧
    ∀ c names, Loads readers files suite c names →
      (∀ name ∈ names, IsSampleName name →
        ∃ value, Holds readers files suite.directory name value) →
      ∃ (judged : List (Sample × Option Bool)) (lines : List String),
        (∀ p ∈ judged, Judged readers files c suite.directory p) ∧
        (judged.map (·.1.fileName)).Perm (names.filter (IsSampleName ·)) ∧
        (judged.map (·.1.fileName)).Pairwise (· ≤ ·) ∧
        List.Forall₂ (fun p line ↦ Says p.1 p.2 line) judged lines ∧
        (suite.run readers files).run.lines =
          lines ++ closingLines (names.countP (IsSampleName ·)) (mismatches judged) := by
  refine ⟨⟨fun hsuccess ↦ ?_, ?_⟩, fun c names hloads hholds ↦ ?_⟩
  · obtain ⟨c, names, hloads⟩ := exists_loads_of_success hsuccess
    rcases run_cases hloads with ⟨judged, hmap, hjudged, hrun⟩ | ⟨hfails, -⟩
    · rw [hrun, success_ofVerdicts_iff] at hsuccess
      exact ⟨c, names, hloads, (forall_passes_iff hmap hjudged).2 hsuccess⟩
    · exact absurd (hfails.symm.trans hsuccess) (by decide)
  · rintro ⟨c, names, hloads, hpasses⟩
    obtain ⟨judged, hmap, hjudged, hrun⟩ := exists_judged_of_holds hloads
      fun name hname hsample ↦ (hpasses name hname hsample).holds
    rw [hrun, success_ofVerdicts_iff]
    exact (forall_passes_iff hmap hjudged).1 hpasses
  · obtain ⟨judged, hmap, hjudged, hrun⟩ := exists_judged_of_holds hloads hholds
    have hnames : judged.map (·.1.fileName) = (Sample.ofEntries names).map Sample.fileName := by
      rw [← hmap, List.map_map]
      rfl
    have hperm : (judged.map (·.1.fileName)).Perm (names.filter (IsSampleName ·)) :=
      hnames ▸ map_fileName_ofEntries_perm names
    have hlength : judged.length = names.countP (IsSampleName ·) := by
      rw [List.countP_eq_length_filter, ← hperm.length_eq, List.length_map]
    refine ⟨judged, judged.map fun p ↦ p.1.line p.2, hjudged, hperm,
      hnames ▸ pairwise_fileName_ofEntries names, ?_, ?_⟩
    · exact List.forall₂_map_right_iff.2 (List.forall₂_same.2 fun p _ ↦ says_line p.1 p.2)
    · rw [hrun, ofVerdicts_eq, hlength]

end Samples

/-! ### Runs on files in memory -/

namespace FileSystem

/-- The operations on files that stay as they are. -/
def snapshot (fs : FileSystem) : FileAccess Id where
  read path := fs.read path
  list path := fs.list path
  createDirectory path := (fs.createDirectory path).map fun _ ↦ ()
  write path text := (fs.write path text).map fun _ ↦ ()

theorem run_read_snapshot {fs : FileSystem} {path : String} :
    (fs.snapshot.read path).run = fs.read path :=
  rfl

/-- A program does what another one does on a snapshot of the files, and leaves them alone. -/
def Agrees {α : Type} (fs : FileSystem) (program : StateM FileSystem α) (still : Id α) : Prop :=
  runOn program fs = (still.run, fs)

variable {α β : Type} {fs : FileSystem} (readers : Readers)

/-- Programs that agree step by step agree. -/
theorem Agrees.bind {program : StateM FileSystem α} {still : Id α} {next : α → StateM FileSystem β}
    {stillNext : α → Id β} (h : Agrees fs program still)
    (hnext : ∀ a, Agrees fs (next a) (stillNext a)) :
    Agrees fs (program >>= next) (still >>= stillNext) := by
  rw [Agrees, runOn_bind, h]
  exact hnext still.run

theorem agrees_pure (a : α) : Agrees fs (pure a) (pure a) :=
  rfl

theorem agrees_read (path : String) :
    Agrees fs (access.read path) (fs.snapshot.read path) :=
  rfl

theorem agrees_list (path : String) :
    Agrees fs (access.list path) (fs.snapshot.list path) :=
  rfl

theorem agrees_loadSettings? (path : Option String) :
    Agrees fs (access.loadSettings? readers path) (fs.snapshot.loadSettings? readers path) := by
  cases path with
  | none => exact agrees_pure _
  | some path =>
    refine (agrees_read path).bind fun result ↦ ?_
    cases result with
    | error fault => exact agrees_pure _
    | ok text =>
      dsimp only
      split <;> exact agrees_pure _

/-- A document compiles on a snapshot as it does on the files. -/
theorem agrees_compileDocument (settings : Settings) (path : String) :
    Agrees fs (access.compileDocument readers settings path)
      (fs.snapshot.compileDocument readers settings path) := by
  refine Agrees.bind ((agrees_read path).bind fun result ↦ ?_) fun result ↦ ?_
  · cases result with
    | error fault => exact agrees_pure _
    | ok text =>
      dsimp only
      split <;> exact agrees_pure _
  · cases result with
    | error failure => exact agrees_pure _
    | ok document =>
      dsimp only
      split <;> exact agrees_pure _

/-- Samples are judged on a snapshot as they are on the files. -/
theorem agrees_judge (c : Compilation) (directory : String) (samples : List Samples.Sample) :
    Agrees fs (Samples.judge readers access c directory samples)
      (Samples.judge readers fs.snapshot c directory samples) := by
  induction samples with
  | nil => exact agrees_pure _
  | cons s samples ih =>
    refine (agrees_read _).bind fun result ↦ ?_
    cases result with
    | error fault => exact agrees_pure _
    | ok text =>
      dsimp only
      split
      · exact agrees_pure _
      · exact ih.bind fun _ ↦ agrees_pure _

/-- **A run is a run on a snapshot of the files.** -/
theorem agrees_run (suite : Samples.Suite) :
    Agrees fs (suite.run readers access) (suite.run readers fs.snapshot) := by
  refine (agrees_loadSettings? readers suite.settings).bind fun result ↦ ?_
  cases result with
  | error failure => exact agrees_pure _
  | ok settings =>
    refine (agrees_compileDocument readers settings suite.schema).bind fun result ↦ ?_
    cases result with
    | error failure => exact agrees_pure _
    | ok c =>
      refine (agrees_list suite.directory).bind fun result ↦ ?_
      cases result with
      | error fault => exact agrees_pure _
      | ok names =>
        refine (agrees_judge readers c suite.directory _).bind fun result ↦ ?_
        obtain ⟨verdicts, - | stopped⟩ := result <;> exact agrees_pure _

end FileSystem

/-! ### A sample suite -/

namespace Samples

open FileSystem Declaration

/-- The directory of samples: two of them, a file that is none, and more entries. -/
def stringSamples (more : List (String × FileTree)) : FileTree :=
  .directory ([("notes.md", .file "".toUTF8),
    ("JSONSchemaObject.b.invalid.json", .file "\x7b\x7d".toUTF8),
    ("JSONSchemaObject.a.json", .file (Json.quote "x").toUTF8)] ++ more)

/-- The empty document, which declares strings, in the working directory, and the samples next to
that. -/
def stringFiles (more : List (String × FileTree)) : FileSystem :=
  ⟨.directory [("work", .directory [("d.json", .file "\x7b\x7d".toUTF8)]),
    ("s", stringSamples more)], ["work"]⟩

/-- The suite in the directory of samples. -/
def stringSuite : Suite :=
  ⟨"d.json", "../s", none⟩

/-- The names in the directory of samples. -/
def stringEntries : List String :=
  ["notes.md", "JSONSchemaObject.b.invalid.json", "JSONSchemaObject.a.json"]

theorem loads_stringSuite (more : List (String × FileTree)) :
    Loads .builtIn (stringFiles more).snapshot stringSuite Invocation.sampleCompilation
      (stringEntries ++ more.map Prod.fst) := by
  have hread : (stringFiles more).read "d.json" = .ok "\x7b\x7d" := read_of_locate rfl rfl
  have hparsed : Readers.builtIn.document (.ofPath "d.json") "\x7b\x7d" = .ok (.object []) :=
    Invocation.document_emptyObject
  have hdocument : ((stringFiles more).snapshot.readDocument .builtIn "d.json").run =
      .ok (.object []) := by
    rw [FileAccess.readDocument, Id.run_bind, run_read_snapshot, hread]
    simp only [hparsed, Id.run_pure]
  exact ⟨⟨{}, .object [], rfl, hdocument, compile_emptyObject (by decide)⟩, rfl⟩

/-- A quoted text, as a document, is the string that it quotes. -/
theorem document_quote (s : String) :
    Readers.builtIn.document .json (Json.quote s) = .ok (.string s) := by
  have hscan : Json.Token.scan (Json.quote s).toList = ⟨[.scalar (.string s)], true⟩ := by
    rw [← List.append_nil (Json.quote s).toList, Json.Token.scan_quote, Json.Token.scan]
    rfl
  have hparse : Json.parse? (Json.quote s) = some (.string s) := by
    rw [Json.parse?, Json.events, hscan]
    rfl
  exact congrArg Readers.found hparse

theorem check?_sampleCompilation_eq_true (s : String) :
    Invocation.sampleCompilation.check? "JSONSchemaObject" (.string s) = some true :=
  congrArg some (accepts_string_iff.2 ⟨s, rfl⟩)

theorem check?_sampleCompilation_eq_false (fields : List (String × Json)) :
    Invocation.sampleCompilation.check? "JSONSchemaObject" (.object fields) = some false := by
  refine congrArg some (Bool.eq_false_iff.2 fun h ↦ ?_)
  obtain ⟨s, hs⟩ := accepts_string_iff.1 h
  exact absurd hs (by simp)

/-- The two samples pass. -/
theorem passes_stringEntries (more : List (String × FileTree)) :
    ∀ name ∈ stringEntries, IsSampleName name →
      Passes .builtIn (stringFiles more).snapshot Invocation.sampleCompilation "../s" name := by
  have hstring : Holds .builtIn (stringFiles more).snapshot "../s" "JSONSchemaObject.a.json"
      (.string "x") :=
    ⟨Json.quote "x", run_read_snapshot.trans (read_of_locate rfl rfl), document_quote "x"⟩
  have hobject : Holds .builtIn (stringFiles more).snapshot "../s" "JSONSchemaObject.b.invalid.json"
      (.object []) :=
    ⟨"\x7b\x7d", run_read_snapshot.trans (read_of_locate rfl rfl), Invocation.document_emptyObject⟩
  have haccepted : Expects "JSONSchemaObject.a.json" "JSONSchemaObject" true :=
    expects_of_ofFileName? rfl
  have hrejected : Expects "JSONSchemaObject.b.invalid.json" "JSONSchemaObject" false :=
    expects_of_ofFileName? rfl
  intro name hname hsample
  simp only [stringEntries, List.mem_cons, List.not_mem_nil, or_false] at hname
  rcases hname with rfl | rfl | rfl
  · exact absurd hsample (by decide)
  · exact ⟨_, _, _, hobject, hrejected, check?_sampleCompilation_eq_false []⟩
  · exact ⟨_, _, _, hstring, haccepted, check?_sampleCompilation_eq_true "x"⟩

/-- An entry that is about no declaration. -/
def strayEntry : String × FileTree :=
  ("Other.json", .file "\x7b\x7d".toUTF8)

theorem not_passes_strayEntry {files : FileAccess Id} :
    ¬Passes readers files Invocation.sampleCompilation directory "Other.json" := by
  rintro ⟨value, declaration, valid, -, hexpects, hcheck⟩
  have hother : Expects "Other.json" "Other" true := expects_of_ofFileName? rfl
  obtain ⟨rfl, rfl⟩ := hexpects.unique hother
  have hnone : Invocation.sampleCompilation.check? "Other" value = none :=
    check?_eq_none_iff.2 (by decide)
  exact absurd (hnone.symm.trans hcheck) (by simp)

/-- The suite succeeds, and its report counts two samples; a sample for a declaration that does not
exist makes it fail. -/
theorem run_stringSuite :
    (runOn (stringSuite.run .builtIn access) (stringFiles [])).1.lines =
        ["✅ JSONSchemaObject.a.json", "✅ JSONSchemaObject.b.invalid.json",
          "2 samples, 0 failed"] ∧
      (runOn (stringSuite.run .builtIn access) (stringFiles [])).1.success = true ∧
      (runOn (stringSuite.run .builtIn access) (stringFiles [strayEntry])).1.success = false := by
  have hrun (more : List (String × FileTree)) :
      (runOn (stringSuite.run .builtIn access) (stringFiles more)).1 =
        (stringSuite.run .builtIn (stringFiles more).snapshot).run :=
    congrArg Prod.fst (agrees_run .builtIn stringSuite)
  obtain ⟨hsuccess, hreport⟩ :=
    Suite.run_success_iff_and_report .builtIn (stringFiles []).snapshot stringSuite
  have hloads := loads_stringSuite []
  have hpasses := passes_stringEntries []
  rw [hrun, hrun]
  refine ⟨?_, hsuccess.2 ⟨_, _, hloads, hpasses⟩, Bool.eq_false_iff.2 fun hstray ↦ ?_⟩
  · obtain ⟨judged, lines, hjudged, hperm, hsorted, hline, hlines⟩ := hreport _ _ hloads
      fun name hname hsample ↦ (hpasses name hname hsample).holds
    have hnames : judged.map (·.1.fileName) =
        ["JSONSchemaObject.a.json", "JSONSchemaObject.b.invalid.json"] := by
      refine hperm.trans ?_ |>.eq_of_pairwise (fun _ _ _ _ ↦ String.le_antisymm) hsorted (by decide)
      decide
    have hexpected (p : Sample × Option Bool) (hp : p ∈ judged) : p.2 = some p.1.valid := by
      have hmem : p.1.fileName ∈ judged.map (·.1.fileName) := List.mem_map_of_mem hp
      obtain ⟨hentry, hsample⟩ := List.mem_filter.1 (hperm.mem_iff.1 hmem)
      exact (hjudged p hp).passes_iff.1 (hpasses _ hentry (of_decide_eq_true hsample))
    rw [hlines, lines_eq_of_expected hexpected hline, hnames, mismatches_eq_zero_iff.2 hexpected]
    rfl
  · obtain ⟨c, names, hloadsStray, hpassesStray⟩ :=
      (Suite.run_success_iff_and_report .builtIn (stringFiles [strayEntry]).snapshot
        stringSuite).1.1 hstray
    obtain ⟨rfl, rfl⟩ := (loads_stringSuite [strayEntry]).unique hloadsStray
    have hmem : "Other.json" ∈ stringEntries ++ [strayEntry].map Prod.fst :=
      List.mem_append_right _ List.mem_cons_self
    exact not_passes_strayEntry (hpassesStray "Other.json" hmem (by decide))

end Samples

end SchemaCodec
