import SchemaCodec.Command.Run
import SchemaCodec.Files.BuiltIn
import SchemaCodec.Samples

/-!
# The programs

The command line of the compiler and that of the sample suites, on the files of the machine. All
decisions are made elsewhere; this module performs the operations and prints the results.
-/

namespace SchemaCodec

/-- The fault that an error of the machine stands for. -/
def faultOfError (e : IO.Error) : FileFault :=
  match e with
  | .noFileOrDirectory _ _ _ => .notFound
  | .alreadyExists _ _ _ => .alreadyExists
  | .inappropriateType _ 20 _ => .notDirectory
  | .inappropriateType _ 21 _ => .isDirectory
  | .invalidArgument _ 36 _ => .nameTooLong
  | e => .other (toString e)

/-- Runs an operation of the machine on a path. -/
def attempt {α : Type} (path : String) (action : IO α) : IO (Except FileFault α) := do
  match FileFault.ofPath? path with
  | some fault => return .error fault
  | none => try return .ok (← action) catch e => return .error (faultOfError e)

/-- The files of the machine. -/
def machineFiles : FileAccess IO where
  read path := do
    match ← attempt path (IO.FS.readBinFile path) with
    | .error fault => return .error fault
    | .ok bytes =>
      match String.fromUTF8? bytes with
      | some text => return .ok text
      | none => return .error .notText
  list path := attempt path do
    return (← ((← IO.currentDir) / path).readDir).toList.map (·.fileName)
  createDirectory path := attempt path (IO.FS.createDirAll path)
  write path text := attempt path (IO.FS.writeFile path text)

/-- The exit code for a command line that is not run. -/
def usageExit : Usage.Problem → UInt32
  | .helpRequested => 0
  | .versionRequested => 0
  | _ => 2

/-- Runs the samples that a command line describes. -/
def runSamples (words : List String) : IO UInt32 := do
  match Samples.Suite.parse words with
  | .error problem => return usageExit problem
  | .ok suite =>
    let report ← suite.run .builtIn machineFiles
    for line in report.lines do
      IO.eprintln line
    return if report.success then 0 else 1

end SchemaCodec

open SchemaCodec in
/-- Runs the compiler on a command line. -/
def main (words : List String) : IO UInt32 := do
  match Invocation.parse words with
  | .error problem => return usageExit problem
  | .ok invocation =>
    let outcome ← invocation.run .builtIn machineFiles
    IO.print outcome.stdout
    IO.eprint outcome.shown
    match outcome.failure with
    | none => return 0
    | some failure =>
      IO.eprintln ("error: " ++ failure.message)
      return 1
