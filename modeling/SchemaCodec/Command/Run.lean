import SchemaCodec.Command.Basic
import SchemaCodec.Files.Source

/-!
# Running a command

A command first reads its settings, then its document, and compiles it; only then does it write or
print anything. A failure leaves no output behind. The log, which goes to the error stream while a
command runs, is no part of what is described here.
-/

namespace SchemaCodec

/-- What a run leaves behind, files and log apart. -/
structure Outcome where
  failure : Option Failure := none
  stdout : String := ""
  /-- What a dry run shows of its command line, on the error stream. -/
  shown : String := ""

variable {m : Type → Type} [Monad m] (readers : Readers)

/-- Reads and compiles an input; gives the settings too. -/
def Input.compile (files : FileAccess m) (input : Input) :
    m (Except Failure (Settings × Compilation)) := do
  match ← files.loadSettings? readers input.settings with
  | .error failure => return .error failure
  | .ok loaded =>
    let settings := { loaded with toplevel := input.toplevel.getD loaded.toplevel }
    match ← files.compileDocument readers settings input.document with
    | .error failure => return .error failure
    | .ok compilation => return .ok (settings, compilation)

/-- Writes a text to a file, in a directory that is created if need be. -/
def FileAccess.writeText (files : FileAccess m) (path text : String) :
    m (Except Failure Unit) := do
  let directory := (Path.parent? path).getD ""
  let created ← if directory.isEmpty then pure (.ok ()) else files.createDirectory directory
  match created with
  | .error fault => return .error (.directoryNotCreated directory fault)
  | .ok () =>
    match ← files.write path text with
    | .error fault => return .error (.notWritten path fault)
    | .ok () => return .ok ()

/-- Runs a command line. -/
def Invocation.run (files : FileAccess m) (i : Invocation) : m Outcome := do
  match i.command with
  | .generate input out dryRun =>
    if dryRun then return { shown := i.describe }
    else
      match ← input.compile readers files with
      | .error failure => return { failure := some failure }
      | .ok (settings, compilation) =>
        let text := (compilation.toModule settings.preamble).text
        match out with
        | none => return { stdout := text }
        | some path =>
          match ← files.writeText path text with
          | .error failure => return { failure := some failure }
          | .ok () => return {}
  | .declarations input =>
    match ← input.compile readers files with
    | .error failure => return { failure := some failure }
    | .ok (_, compilation) =>
      return { stdout := String.join (compilation.names.map (· ++ "\n")) }

end SchemaCodec
