import SchemaCodec.Command.Usage
import SchemaCodec.Files.Source

/-!
# Sample suites

A directory of JSON files tests a schema: the file `Name.label.json` holds a value that the
declaration `Name` must accept, and `Name.label.invalid.json` one that it must reject. Every sample
gives one line of the report, in the order of the file names.
-/

namespace SchemaCodec.Samples

/-- A test of a schema. -/
structure Suite where
  /-- The path of the document. -/
  schema : String
  /-- The directory of the samples. -/
  directory : String
  /-- The path of the settings. -/
  settings : Option String
deriving DecidableEq

/-- The options that describe a suite. -/
def options : List Usage.Switch :=
  [⟨"schema", none, .path⟩, ⟨"samples", none, .path⟩, ⟨"config", none, .path⟩,
    ⟨"help", some 'h', .help⟩]

/-- Reads a command line. -/
def Suite.parse (words : List String) : Except Usage.Problem Suite := do
  let (given, _) ← Usage.read options [] {} words
  match given.lookup "schema", given.lookup "samples" with
  | some schema, some directory => return ⟨schema, directory, given.lookup "config"⟩
  | _, _ => throw .missingRequired

/-- A value with the verdict expected on it. -/
structure Sample where
  fileName : String
  declaration : String
  /-- Whether the value must be accepted. -/
  valid : Bool
deriving DecidableEq

/-- The text before a suffix. -/
def dropSuffix? (suffix text : String) : Option String :=
  let count := text.toList.length - suffix.toList.length
  if text.toList.drop count = suffix.toList then some (String.ofList (text.toList.take count))
  else none

/-- The sample in a file, if its name makes it one. -/
def Sample.ofFileName? (fileName : String) : Option Sample :=
  (dropSuffix? ".json" fileName).map fun stem ↦
    let (stem, valid) :=
      match dropSuffix? ".invalid" stem with
      | some shorter => (shorter, false)
      | none => (stem, true)
    ⟨fileName, String.ofList (stem.toList.takeWhile (· != '.')), valid⟩

/-- The samples among the entries of a directory, in the order of their names. -/
def Sample.ofEntries (names : List String) : List Sample :=
  (names.filterMap Sample.ofFileName?).mergeSort fun a b ↦ decide (a.fileName ≤ b.fileName)

/-- Whether the verdict on a sample is the expected one. -/
def Sample.passes (s : Sample) (verdict : Option Bool) : Bool :=
  verdict == some s.valid

/-- The line that reports the verdict on a sample. -/
def Sample.line (s : Sample) : Option Bool → String
  | none => "❌ " ++ s.fileName ++ ": no declaration `" ++ s.declaration ++ "`"
  | some accepted =>
    if accepted = s.valid then "✅ " ++ s.fileName
    else "❌ " ++ s.fileName ++ ": unexpectedly " ++ (if accepted then "accepted" else "rejected")

/-- The report of a suite. -/
structure Report where
  lines : List String
  success : Bool
deriving DecidableEq

/-- The last line of a report that fails. -/
def errorLine (text : String) : String :=
  "Error: " ++ text

/-- The decimal form of a count. -/
def countText (n : Nat) : String :=
  String.ofList (Nat.toDigits 10 n)

/-- The report on samples with their verdicts. -/
def Report.ofVerdicts (verdicts : List (Sample × Option Bool)) : Report :=
  let failed := verdicts.countP fun p ↦ !p.1.passes p.2
  let lines := verdicts.map (fun p ↦ p.1.line p.2) ++
    [countText verdicts.length ++ " samples, " ++ countText failed ++ " failed"]
  if failed = 0 then ⟨lines, true⟩
  else ⟨lines ++ [errorLine (countText failed ++ " sample(s) did not match expectations")], false⟩

section

variable {m : Type → Type} [Monad m] (readers : Readers)

/-- The verdicts on samples, up to the first one that cannot be read; its text comes along. -/
def judge (files : FileAccess m) (compilation : Compilation) (directory : String) :
    List Sample → m (List (Sample × Option Bool) × Option String)
  | [] => return ([], none)
  | s :: rest => do
    let path := Path.join directory s.fileName
    match ← files.read path with
    | .error _ => return ([], some ("failed to read " ++ path))
    | .ok text =>
      match readers.document .json text with
      | .error _ => return ([], some ("failed to parse " ++ path))
      | .ok value =>
        let (verdicts, stopped) ← judge files compilation directory rest
        return ((s, compilation.check? s.declaration value) :: verdicts, stopped)

/-- Runs a suite. -/
def Suite.run (files : FileAccess m) (suite : Suite) : m Report := do
  match ← files.loadSettings? readers suite.settings with
  | .error failure => return ⟨[errorLine failure.summary], false⟩
  | .ok settings =>
    match ← files.compileDocument readers settings suite.schema with
    | .error failure => return ⟨[errorLine failure.summary], false⟩
    | .ok compilation =>
      match ← files.list suite.directory with
      | .error _ => return ⟨[errorLine ("failed to list " ++ suite.directory)], false⟩
      | .ok names =>
        let samples := Sample.ofEntries names
        match ← judge readers files compilation suite.directory samples with
        | (verdicts, none) => return Report.ofVerdicts verdicts
        | (verdicts, some stopped) =>
          return ⟨verdicts.map (fun p ↦ p.1.line p.2) ++ [errorLine stopped], false⟩

end

end SchemaCodec.Samples
