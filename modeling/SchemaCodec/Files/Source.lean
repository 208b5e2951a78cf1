import SchemaCodec.Compilation
import SchemaCodec.Files.Access
import SchemaCodec.Files.Readers

/-!
# Documents and settings in files

The path of a file says in which format its text is written. A failure has a text of its own for
every step that it passes through, and the last one is its cause.
-/

namespace SchemaCodec

/-- Why a run of the program fails. -/
inductive Failure where
  | settingsUnreadable (path : String) (fault : FileFault)
  | settingsInvalid (path message : String)
  | documentUnreadable (path : String) (fault : FileFault)
  /-- The library does not read the document, for the given cause. -/
  | documentMalformed (path cause : String)
  | notCompiled (path : String) (error : CompileError)
  | directoryNotCreated (path : String) (fault : FileFault)
  | notWritten (path : String) (fault : FileFault)
deriving DecidableEq

namespace Failure

/-- The texts of a failure, from the outermost to its cause. Unreadable settings name their cause
twice. -/
def chain : Failure → List String
  | .settingsUnreadable path fault =>
    ["failed to read config " ++ path ++ ": " ++ fault.message, fault.message]
  | .settingsInvalid path message => ["invalid config " ++ path ++ ": " ++ message]
  | .documentUnreadable path fault => ["failed to read source file " ++ path, fault.message]
  | .documentMalformed path cause =>
    ["failed to parse " ++ (Format.ofPath path).text ++ " source file " ++ path, cause]
  | .notCompiled path error => ["failed to compile " ++ path, error.message]
  | .directoryNotCreated path fault => ["failed to create " ++ path, fault.message]
  | .notWritten path fault => ["failed to write " ++ path, fault.message]

/-- The outermost text of a failure. -/
def summary (f : Failure) : String :=
  f.chain.headD ""

/-- All texts of a failure in one line. -/
def message (f : Failure) : String :=
  ": ".intercalate f.chain

end Failure

namespace FileAccess

variable {m : Type → Type} [Monad m] (readers : Readers)

/-- Reads the settings in a file. -/
def loadSettings (files : FileAccess m) (path : String) : m (Except Failure Settings) := do
  match ← files.read path with
  | .error fault => return .error (.settingsUnreadable path fault)
  | .ok text =>
    match Settings.ofText (readers.settings (.ofPath path)) text with
    | .error message => return .error (.settingsInvalid path message)
    | .ok settings => return .ok settings

/-- Reads the document in a file. -/
def readDocument (files : FileAccess m) (path : String) : m (Except Failure Json) := do
  match ← files.read path with
  | .error fault => return .error (.documentUnreadable path fault)
  | .ok text =>
    match readers.document (.ofPath path) text with
    | .error cause => return .error (.documentMalformed path cause)
    | .ok document => return .ok document

/-- Reads the settings in a file, if one is given, and the defaults otherwise. -/
def loadSettings? (files : FileAccess m) : Option String → m (Except Failure Settings)
  | none => return .ok {}
  | some path => loadSettings readers files path

/-- Reads and compiles the document in a file. -/
def compileDocument (files : FileAccess m) (settings : Settings) (path : String) :
    m (Except Failure Compilation) := do
  match ← readDocument readers files path with
  | .error failure => return .error failure
  | .ok document =>
    match compile settings document with
    | .error error => return .error (.notCompiled path error)
    | .ok compilation => return .ok compilation

end FileAccess

end SchemaCodec
