import SchemaCodec.Reading
import SchemaCodec.Settings.OfText

/-!
# Settings from events

Settings are decoded from the events of a text one by one, so the first problem in the text is the
one reported, even if the text is faulty further on. Keys that are missing keep their defaults. The
formats differ in what a leaf may stand for; a `Dialect` collects these differences.
-/

namespace SchemaCodec.Settings

/-- The keys of the settings. -/
inductive Key where
  | toplevel
  | envelope
  | anything
  | proto
  | topLevelSuffix
  | preamble
deriving DecidableEq

namespace Key

/-- All keys, in the order in which a list fills them. -/
def all : List Key :=
  [toplevel, envelope, anything, proto, topLevelSuffix, preamble]

/-- The spelling of a key. -/
def text : Key → String
  | toplevel => "toplevel"
  | envelope => "envelope"
  | anything => "anything"
  | proto => "proto"
  | topLevelSuffix => "top_level_suffix"
  | preamble => "preamble"

/-- The key with a spelling. -/
def ofText? (s : String) : Option Key :=
  all.find? fun k ↦ k.text == s

end Key

/-- Sets a key that holds one string. -/
def setText (settings : Settings) (key : Key) (s : String) : Settings :=
  match key with
  | .toplevel => { settings with toplevel := s }
  | .envelope => { settings with envelope := s }
  | .anything => { settings with anything := s }
  | .proto => settings
  | .topLevelSuffix => { settings with topLevelSuffix := s }
  | .preamble => { settings with preamble := s }

/-! ### Problems -/

/-- What a place in the settings should hold. -/
inductive Expected where
  | string
  | sequence
  | settings
deriving DecidableEq

/-- The wording of an expectation. -/
def Expected.text : Expected → String
  | .string => "a string"
  | .sequence => "a sequence"
  | .settings => "struct Config"

/-- Why a text is not accepted as settings. -/
inductive Problem where
  /-- The text does not follow the rules of its format, or holds what no settings can. -/
  | malformed
  | unknownKey (name : String)
  | repeatedKey (key : Key)
  /-- A key that is a list or a mapping, described by `found`. -/
  | wrongKey (found : String)
  /-- A value of the wrong kind, described by `found`, at the end of `path`. -/
  | wrongType (path : List Step) (found : String) (expected : Expected)
deriving DecidableEq

/-- A path as it is shown; the empty one is a full stop. -/
def pathText (path : List Step) : String :=
  if path.isEmpty then "."
  else String.join (path.map fun
    | .key name => name
    | .index i => "[" ++ String.ofList (Nat.toDigits 10 i) ++ "]")

/-- The keys as a message lists them. -/
def keyList : String :=
  ", ".intercalate (Key.all.map fun k ↦ "`" ++ k.text ++ "`")

/-- Where a problem is. A key that is no text has no path. -/
def Problem.path : Problem → String
  | .malformed => "."
  | .unknownKey name => name
  | .repeatedKey _ => "."
  | .wrongKey _ => "?"
  | .wrongType path _ _ => pathText path

/-- The wording of a problem. Where `repeats` holds, a wrong type below the root shows its path once
more. -/
def Problem.reason (repeats : Bool) : Problem → String
  | .malformed => "malformed"
  | .unknownKey name => "unknown field `" ++ name ++ "`, expected one of " ++ keyList
  | .repeatedKey key => "duplicate field `" ++ key.text ++ "`"
  | .wrongKey found => "invalid type: " ++ found ++ ", expected field identifier"
  | .wrongType path found expected =>
    (if repeats && !path.isEmpty then pathText path ++ ": " else "") ++
      "invalid type: " ++ found ++ ", expected " ++ expected.text

/-- A problem as it is reported. -/
def Problem.rejection (repeats : Bool) (p : Problem) : Rejection :=
  ⟨p.path, p.reason repeats⟩

/-! ### Decoding -/

/-- How a format writes settings. -/
structure Dialect (σ : Type) where
  /-- The string that a leaf gives to a key holding one. -/
  string? : σ → Option String
  /-- The key that a leaf spells. -/
  key? : σ → Option String
  /-- What a leaf is called in a message. -/
  describe : σ → String
  /-- Whether a leaf may stand for an empty list or mapping. -/
  isEmpty : σ → Bool
  /-- Whether a list may give the values in the order of the keys. -/
  positional : Bool
  /-- Whether an empty text stands for the defaults. -/
  emptyText : Bool
  /-- Whether anything may follow the settings in the text. -/
  trailing : Bool

/-- Where values are being given: by key, with the keys given so far, or by position, with the keys
still to come. -/
inductive Context where
  | byKey (given : List Key)
  | byPosition (left : List Key)

/-- What comes next in the settings. -/
inductive State where
  /-- Anything, at the start. -/
  | root
  /-- A key, a positional value or the end. -/
  | inside (context : Context)
  /-- The value of a key. -/
  | value (context : Context) (key : Key)
  /-- An item of the list of names, or its end. -/
  | names (context : Context) (reversed : List String)
  /-- Nothing that matters. -/
  | finished

namespace Context

/-- The path to the value of a key that was just reached. -/
def path : Context → Key → List Step
  | byKey _, key => [.key key.text]
  | byPosition left, _ => [.index (Key.all.length - 1 - left.length)]

end Context

section

variable {σ : Type} (dialect : Dialect σ)

/-- What a value is called in a message; an end is no value. -/
def describeEvent : Event σ → Option String
  | .leaf s => some (dialect.describe s)
  | .openList => some "sequence"
  | .openMap => some "map"
  | .closeList => none
  | .closeMap => none

/-- The problem of finding an event where something else is expected. -/
def mismatch (path : List Step) (expected : Expected) (e : Event σ) : Problem :=
  match describeEvent dialect e with
  | some found => .wrongType path found expected
  | none => .malformed

/-- Takes in the start of the value of a key. -/
def startValue (settings : Settings) (context : Context) (key : Key) (e : Event σ) :
    Except Problem (Settings × State) :=
  if key = .proto then
    match e with
    | .openList => .ok (settings, .names context [])
    | .leaf s =>
      if dialect.isEmpty s then .ok ({ settings with proto := [] }, .inside context)
      else .error (mismatch dialect (context.path key) .sequence e)
    | _ => .error (mismatch dialect (context.path key) .sequence e)
  else
    match e with
    | .leaf s =>
      match dialect.string? s with
      | some text => .ok (settings.setText key text, .inside context)
      | none => .error (mismatch dialect (context.path key) .string e)
    | _ => .error (mismatch dialect (context.path key) .string e)

/-- Takes in a key. -/
def startKey (settings : Settings) (given : List Key) (s : σ) :
    Except Problem (Settings × State) :=
  match dialect.key? s with
  | none => .error .malformed
  | some name =>
    match Key.ofText? name with
    | none => .error (.unknownKey name)
    | some key =>
      if key ∈ given then .error (.repeatedKey key)
      else .ok (settings, .value (.byKey (key :: given)) key)

/-- Takes in one event. -/
def step : Settings × State → Event σ → Except Problem (Settings × State)
  | (settings, .root), e =>
    match e with
    | .openMap => .ok (settings, .inside (.byKey []))
    | .openList =>
      if dialect.positional then .ok (settings, .inside (.byPosition Key.all))
      else .error (mismatch dialect [] .settings e)
    | .leaf s =>
      if dialect.isEmpty s then .ok (settings, .finished)
      else .error (mismatch dialect [] .settings e)
    | _ => .error .malformed
  | (settings, .inside (.byKey given)), e =>
    match e with
    | .closeMap => .ok (settings, .finished)
    | .leaf s => startKey dialect settings given s
    | e =>
      match describeEvent dialect e with
      | some found => .error (.wrongKey found)
      | none => .error .malformed
  | (settings, .inside (.byPosition left)), e =>
    match e, left with
    | .closeList, _ => .ok (settings, .finished)
    | _, key :: left => startValue dialect settings (.byPosition left) key e
    | _, [] => .error .malformed
  | (settings, .value context key), e => startValue dialect settings context key e
  | (settings, .names context reversed), e =>
    let path := context.path .proto ++ [.index reversed.length]
    match e with
    | .closeList => .ok ({ settings with proto := reversed.reverse }, .inside context)
    | .leaf s =>
      match dialect.string? s with
      | some text => .ok (settings, .names context (text :: reversed))
      | none => .error (mismatch dialect path .string e)
    | _ => .error (mismatch dialect path .string e)
  | (settings, .finished), _ => .ok (settings, .finished)

/-- The settings that a text gives. -/
def decode (reading : Reading (Event σ)) : Except Problem Settings :=
  match reading.items.foldlM (step dialect) ({}, .root) with
  | .error problem => .error problem
  | .ok (settings, state) =>
    let ended := match state with
      | .finished => true
      | .root => dialect.emptyText
      | _ => false
    if ended && (dialect.trailing || reading.complete) then .ok settings else .error .malformed

end

end SchemaCodec.Settings
