import SchemaCodec.Yaml.Token

/-!
# YAML events

The grammar of YAML as a machine over tokens. Its stack holds, for every collection still open, what
comes next there. Keys and values may be left out; that shows only at a token which cannot start
them. So before a token is read, `settle` closes what the token ends and fills in empty scalars, and
`shift` then reads it. One document is read; anything behind it is a fault.
-/

namespace SchemaCodec.Yaml

/-- What comes next at one level of a text. -/
inductive Place where
  /-- A document, marked or not. -/
  | start
  /-- The content of a marked document. -/
  | content
  /-- An entry of a block list, or its end. -/
  | blockEntry
  /-- The item behind the dash of a block list. -/
  | blockItem
  /-- An entry of a list at the column of its key, or anything else. -/
  | bareEntry
  /-- The item behind the dash of such a list. -/
  | bareItem
  /-- A key of a block mapping, or its end. -/
  | blockKey
  /-- The key itself. -/
  | blockKeyNode
  /-- The mark before the value. -/
  | blockColon
  /-- The value itself. -/
  | blockValue
  /-- An item between brackets, or the end. -/
  | flowItem
  /-- A comma behind an item, or the end. -/
  | flowNext
  /-- The key of a single pair between brackets. -/
  | pairKey
  /-- The mark before the value of the pair. -/
  | pairColon
  /-- The value of the pair. -/
  | pairValue
  /-- The end of the pair. -/
  | pairEnd
  /-- An entry between braces, or the end. -/
  | braceEntry
  /-- A comma behind an entry, or the end. -/
  | braceNext
  /-- The key of an entry. -/
  | braceKey
  /-- The mark before the value of an entry. -/
  | braceColon
  /-- The value of an entry. -/
  | braceValue
  /-- The missing value of an entry without a mark. -/
  | braceNoValue
deriving DecidableEq

namespace Place

/-- A scalar that was left out. -/
def omitted : Event Scalar :=
  .leaf ⟨"", true⟩

/-- Puts events in front of those that were found further out. -/
def after (events : List (Event Scalar)) (outer : List (Event Scalar) × List Place) :
    List (Event Scalar) × List Place :=
  (events ++ outer.1, outer.2)

/-- Closes and fills in what ends before the token `t`. -/
def settle (t : Token) : List Place → List (Event Scalar) × List Place
  | [] => ([], [])
  | p :: rest =>
    let stays := ([], p :: rest)
    match p with
    | content =>
      if t = .documentStart ∨ t = .documentEnd ∨ t = .finish then ([omitted], rest) else stays
    | blockItem => if t = .entry ∨ t = .blockEnd then ([omitted], blockEntry :: rest) else stays
    | bareItem =>
      if t = .entry then ([omitted], bareEntry :: rest)
      else if t = .key ∨ t = .value ∨ t = .blockEnd then
        after [omitted, .closeList] (settle t rest)
      else stays
    | bareEntry => if t = .entry then stays else after [.closeList] (settle t rest)
    | blockKeyNode =>
      if t = .value then ([omitted], blockColon :: rest)
      else if t = .key ∨ t = .blockEnd then ([omitted, omitted], blockKey :: rest)
      else stays
    | blockColon => if t = .value then stays else ([omitted], blockKey :: rest)
    | blockValue =>
      if t = .key ∨ t = .value ∨ t = .blockEnd then ([omitted], blockKey :: rest) else stays
    | pairKey =>
      if t = .value then ([omitted], pairColon :: rest)
      else if t = .comma ∨ t = .listClose then
        after [omitted, omitted, .closeMap] (settle t rest)
      else stays
    | pairColon => if t = .value then stays else after [omitted, .closeMap] (settle t rest)
    | pairValue =>
      if t = .comma ∨ t = .listClose then after [omitted, .closeMap] (settle t rest) else stays
    | pairEnd => after [.closeMap] (settle t rest)
    | braceKey =>
      if t = .value then ([omitted], braceColon :: rest)
      else if t = .comma ∨ t = .mapClose then ([omitted, omitted], braceNext :: rest)
      else stays
    | braceColon => if t = .value then stays else ([omitted], braceNext :: rest)
    | braceValue => if t = .comma ∨ t = .mapClose then ([omitted], braceNext :: rest) else stays
    | braceNoValue => ([omitted], braceNext :: rest)
    | _ => stays

/-- Reads the start of a node, after which the machine goes on with `rest`. Block collections may
start only where `block` holds, and a list at the column of its key only where `bare` holds. -/
def startNode (block bare : Bool) (rest : List Place) :
    Token → Option (List (Event Scalar) × List Place)
  | .scalar s => some ([.leaf s], rest)
  | .listOpen => some ([.openList], flowItem :: rest)
  | .mapOpen => some ([.openMap], braceEntry :: rest)
  | .blockListStart => if block then some ([.openList], blockEntry :: rest) else none
  | .blockMapStart => if block then some ([.openMap], blockKey :: rest) else none
  | .entry => if bare then some ([.openList], bareItem :: rest) else none
  | _ => none

/-- Reads a token in a settled state. -/
def shift (t : Token) : List Place → Option (List (Event Scalar) × List Place)
  | [] => if t = .documentEnd ∨ t = .finish then some ([], []) else none
  | start :: rest =>
    match t with
    | .documentStart => some ([], content :: rest)
    | .finish => some ([], rest)
    | t => startNode true false rest t
  | content :: rest => startNode true false rest t
  | blockEntry :: rest =>
    match t with
    | .entry => some ([], blockItem :: rest)
    | .blockEnd => some ([.closeList], rest)
    | _ => none
  | blockItem :: rest => startNode true false (blockEntry :: rest) t
  | bareEntry :: rest => if t = .entry then some ([], bareItem :: rest) else none
  | bareItem :: rest => startNode true false (bareEntry :: rest) t
  | blockKey :: rest =>
    match t with
    | .key => some ([], blockKeyNode :: rest)
    | .blockEnd => some ([.closeMap], rest)
    | _ => none
  | blockKeyNode :: rest => startNode true true (blockColon :: rest) t
  | blockColon :: rest => if t = .value then some ([], blockValue :: rest) else none
  | blockValue :: rest => startNode true true (blockKey :: rest) t
  | flowItem :: rest =>
    match t with
    | .listClose => some ([.closeList], rest)
    | .key => some ([.openMap], pairKey :: flowNext :: rest)
    | t => startNode false false (flowNext :: rest) t
  | flowNext :: rest =>
    match t with
    | .comma => some ([], flowItem :: rest)
    | .listClose => some ([.closeList], rest)
    | _ => none
  | pairKey :: rest => startNode false false (pairColon :: rest) t
  | pairColon :: rest => if t = .value then some ([], pairValue :: rest) else none
  | pairValue :: rest => startNode false false (pairEnd :: rest) t
  | pairEnd :: _ => none
  | braceEntry :: rest =>
    match t with
    | .mapClose => some ([.closeMap], rest)
    | .key => some ([], braceKey :: rest)
    | t => startNode false false (braceNoValue :: rest) t
  | braceNext :: rest =>
    match t with
    | .comma => some ([], braceEntry :: rest)
    | .mapClose => some ([.closeMap], rest)
    | _ => none
  | braceKey :: rest => startNode false false (braceColon :: rest) t
  | braceColon :: rest => if t = .value then some ([], braceValue :: rest) else none
  | braceValue :: rest => startNode false false (braceNext :: rest) t
  | braceNoValue :: _ => none

/-- Runs the machine over tokens; the text is complete if nothing is left open at its end. -/
def run (complete : Bool) : List Place → List Token → Reading (Event Scalar)
  | places, [] => ⟨[], complete && places.isEmpty⟩
  | places, t :: rest =>
    let (closing, places) := settle t places
    match shift t places with
    | none => ⟨closing, false⟩
    | some (events, places') => (run complete places' rest).append (closing ++ events)

end Place

/-- The events of a YAML text, up to the first fault. -/
def events (text : String) : Reading (Event Scalar) :=
  let tokens := Token.scan text
  Place.run tokens.complete [.start] tokens.items

end SchemaCodec.Yaml
