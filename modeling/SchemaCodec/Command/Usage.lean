/-!
# Options on a command line

A command line is read from the left against a list of options. A long option takes its value behind
an equals sign or from the next word; a short one also from the rest of its own word, and short
flags may be bundled. A value taken from the next word is settled only when the next option is
recognised or the line ends, so an unknown word in between is reported first.
-/

namespace SchemaCodec.Usage

/-- Why a command line is not run. -/
inductive Problem where
  | helpRequested
  | versionRequested
  /-- Nothing was asked for at all. -/
  | nothingAsked
  | missingSubcommand
  | missingRequired
  | unknownSubcommand
  | unknownArgument
  /-- A value is missing, or is empty where it may not be. -/
  | invalidValue
  /-- An option was given twice. -/
  | repeatedOption
  /-- A flag was given a value. -/
  | unexpectedValue
deriving DecidableEq

/-- What an option does. -/
inductive Kind where
  | flag
  /-- Takes a path, which is not empty. -/
  | path
  /-- Takes any text. -/
  | text
  | help
  | version
deriving DecidableEq

/-- Whether an option takes a value. -/
def Kind.takesValue : Kind → Bool
  | path => true
  | text => true
  | _ => false

/-- An option of a command. -/
structure Switch where
  long : String
  short : Option Char
  kind : Kind
deriving DecidableEq

/-- The options given so far, with their values; a flag has the empty one. -/
abbrev Given := List (String × String)

/-- Whether an option was given. -/
def Given.has (g : Given) (long : String) : Bool :=
  (g.lookup long).isSome

/-- The state of reading a line. -/
structure State where
  given : Given := []
  /-- The last option that takes a value from the next word, with that value once it is read. -/
  pending : Option (Switch × Option String) := none
  /-- Whether only plain words may follow. -/
  plainOnly : Bool := false

/-- Gives an option, with the value it was given. -/
def Given.add (g : Given) (o : Switch) (value : Option String) : Except Problem Given :=
  match o.kind, value with
  | .help, _ => .error .helpRequested
  | .version, _ => .error .versionRequested
  | .flag, _ => if g.has o.long then .error .repeatedOption else .ok ((o.long, "") :: g)
  | _, none => .error .invalidValue
  | kind, some v =>
    if g.has o.long then .error .repeatedOption
    else if kind = .path ∧ v = "" then .error .invalidValue
    else .ok ((o.long, v) :: g)

namespace State

/-- Settles the pending option. -/
def settle (s : State) : Except Problem State :=
  match s.pending with
  | none => .ok s
  | some (o, value) => (s.given.add o value).map fun g ↦ { s with given := g, pending := none }

/-- Settles the pending option and gives another one. -/
def give (s : State) (o : Switch) (value : Option String) : Except Problem State := do
  let s ← s.settle
  return { s with given := ← s.given.add o value }

/-- Settles the pending option and makes another one wait for the next word. -/
def await (s : State) (o : Switch) : Except Problem State := do
  return { ← s.settle with pending := some (o, none) }

/-- The option that waits for the next word. -/
def awaiting? (s : State) : Option Switch :=
  match s.pending with
  | some (o, none) => some o
  | _ => none

/-- Reads a long option without its dashes. -/
def long (options : List Switch) (s : State) (word : List Char) : Except Problem State :=
  let name := word.takeWhile (· != '=')
  let value := (word.drop name.length).tail
  let attached := decide (name.length < word.length)
  match options.find? fun o ↦ o.long.toList == name with
  | none => .error .unknownArgument
  | some o =>
    if o.kind.takesValue then
      if attached then s.give o (some (String.ofList value)) else s.await o
    else if attached then .error .unexpectedValue
    else s.give o none

/-- Reads short options without their dash. -/
def short (options : List Switch) (s : State) : List Char → Except Problem State
  | [] => .ok s
  | c :: rest =>
    match options.find? fun o ↦ o.short == some c with
    | none => .error .unknownArgument
    | some o =>
      if o.kind.takesValue then
        match rest with
        | [] => s.await o
        | '=' :: value => s.give o (some (String.ofList value))
        | value => s.give o (some (String.ofList value))
      else
        match s.give o none with
        | .error e => .error e
        | .ok s => short options s rest

end State

/-- Reads a line up to its end or to a subcommand, of which it gives the name and its own line. -/
def read (options : List Switch) (subcommands : List String) (s : State) :
    List String → Except Problem (Given × Option (String × List String))
  | [] => s.settle.map fun s ↦ (s.given, none)
  | word :: rest =>
    let plain : Problem :=
      if subcommands.isEmpty then .unknownArgument
      else if s.plainOnly && subcommands.contains word then .unknownArgument
      else .unknownSubcommand
    if s.plainOnly then .error plain
    else if s.awaiting?.isNone && subcommands.contains word then
      .ok (s.given, some (word, rest))
    else
      match word.toList with
      | ['-', '-'] => read options subcommands { s with plainOnly := true } rest
      | '-' :: '-' :: long =>
        match s.long options long with
        | .error e => .error e
        | .ok s => read options subcommands s rest
      | '-' :: c :: short =>
        match s.short options (c :: short) with
        | .error e => .error e
        | .ok s => read options subcommands s rest
      | _ =>
        match s.awaiting? with
        | some o => read options subcommands { s with pending := some (o, some word) } rest
        | none => .error plain

end SchemaCodec.Usage
