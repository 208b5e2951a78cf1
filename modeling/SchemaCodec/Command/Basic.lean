import SchemaCodec.Command.Usage
import SchemaCodec.Text.Quoted

/-!
# The command line of the compiler

The compiler has two commands: one emits the module of a schema document, the other lists the names
of its declarations.
-/

namespace SchemaCodec

/-- What to compile, and how. -/
structure Input where
  /-- The path of the document. -/
  document : String
  /-- The name of the top-level declaration, if it is not to come from the settings. -/
  toplevel : Option String
  /-- The path of the settings. -/
  settings : Option String
deriving DecidableEq

/-- What to do. -/
inductive Command where
  /-- Emits the module, into a file if a path is given; a dry run only shows the command. -/
  | generate (input : Input) (out : Option String) (dryRun : Bool)
  /-- Lists the names of the declarations. -/
  | declarations (input : Input)
deriving DecidableEq

/-- A command line. -/
structure Invocation where
  verbose : Bool
  command : Command
deriving DecidableEq

namespace Invocation

open Usage (Switch Given)

/-! ### Reading -/

/-- The option that asks for help. -/
def helpOption : Switch := ⟨"help", some 'h', .help⟩

/-- The option that asks for more messages, which stands anywhere. -/
def verboseOption : Switch := ⟨"verbose", some 'v', .flag⟩

/-- The options before the command. -/
def mainOptions : List Switch :=
  [verboseOption, helpOption, ⟨"version", some 'V', .version⟩]

/-- The options that both commands share. -/
def inputOptions : List Switch :=
  [⟨"input", some 'i', .path⟩, ⟨"toplevel", none, .text⟩, ⟨"config", none, .path⟩, verboseOption,
    helpOption]

/-- The options of the command that emits the module. -/
def generateOptions : List Switch :=
  inputOptions ++ [⟨"out", some 'o', .path⟩, ⟨"no-op", none, .flag⟩]

/-- The names of the commands. -/
def commandNames : List String :=
  ["generate", "declarations", "help"]

/-- The problem that a request for help on commands ends in. -/
def helpProblem : List String → Usage.Problem
  | [] => .helpRequested
  | [name] => if commandNames.contains name then .helpRequested else .unknownSubcommand
  | _ => .unknownSubcommand

/-- The input that options describe. -/
def inputOf (given : Given) : Except Usage.Problem Input :=
  match given.lookup "input" with
  | none => .error .missingRequired
  | some document => .ok ⟨document, given.lookup "toplevel", given.lookup "config"⟩

/-- Reads a command line. -/
def parse (words : List String) : Except Usage.Problem Invocation := do
  let (before, rest) ← Usage.read mainOptions commandNames {} words
  match rest with
  | none => throw (if before.isEmpty then .nothingAsked else .missingSubcommand)
  | some (name, words) =>
    if name = "help" then throw (helpProblem words)
    else if name = "generate" then
      let (given, _) ← Usage.read generateOptions [] {} words
      let input ← inputOf given
      return ⟨before.has "verbose" || given.has "verbose",
        .generate input (given.lookup "out") (given.has "no-op")⟩
    else
      let (given, _) ← Usage.read inputOptions [] {} words
      return ⟨before.has "verbose" || given.has "verbose", .declarations (← inputOf given)⟩

/-! ### Showing -/

/-- A nested record as it is shown, one line for each part. -/
inductive Shown where
  | word (text : String)
  /-- A name with one unnamed part in brackets. -/
  | wrapped (name : String) (part : Shown)
  /-- A name with named parts in braces. -/
  | record (name : String) (parts : List (String × Shown))

/-- Moves lines to the right. -/
def indent (lines : List String) : List String :=
  lines.map ("    " ++ ·)

/-- Puts a comma behind the last line. -/
def withComma : List String → List String
  | [] => []
  | [last] => [last ++ ","]
  | line :: rest => line :: withComma rest

/-- Puts a label before the first line. -/
def labelled (label : String) : List String → List String
  | [] => []
  | line :: rest => (label ++ ": " ++ line) :: rest

mutual

/-- The lines of a shown value. -/
def Shown.lines : Shown → List String
  | .word text => [text]
  | .wrapped name part => (name ++ "(") :: indent (withComma part.lines) ++ [")"]
  | .record name parts => (name ++ " \x7b") :: indent (Shown.partLines parts) ++ ["\x7d"]

/-- The lines of named parts. -/
def Shown.partLines : List (String × Shown) → List String
  | [] => []
  | (name, part) :: rest => withComma (labelled name part.lines) ++ Shown.partLines rest

end

/-- A truth value. -/
def Shown.bool (b : Bool) : Shown :=
  .word (if b then "true" else "false")

/-- A text that may be missing. -/
def Shown.optional : Option String → Shown
  | none => .word "None"
  | some s => .wrapped "Some" (.word (Text.quoted s))

/-- The input of a command. -/
def showInput (i : Input) : Shown :=
  .record "InputSettings"
    [("input", .word (Text.quoted i.document)), ("toplevel", .optional i.toplevel),
      ("config", .optional i.settings)]

/-- A command. -/
def showCommand : Command → Shown
  | .generate input out dryRun =>
    .wrapped "Generate" (.record "GenerateOut"
      [("input_settings", showInput input), ("out", .optional out), ("no_op", .bool dryRun)])
  | .declarations input =>
    .wrapped "Declarations" (.record "DeclarationsOut" [("input_settings", showInput input)])

/-- A command line with all it says, one line for each part. -/
def describe (i : Invocation) : String :=
  let shown : Shown := .record "CommandLineInterface"
    [("verbose", .bool i.verbose), ("cmd", showCommand i.command)]
  "\n".intercalate shown.lines ++ "\n"

end Invocation

end SchemaCodec
