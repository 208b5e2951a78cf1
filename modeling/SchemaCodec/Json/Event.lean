import SchemaCodec.Json.Token

/-!
# JSON events

The grammar of JSON as a machine over tokens. Its stack holds, for every array and object still
open, what may come next there; a token either moves the machine, possibly delivering one event, or
is a fault. An object's key is delivered as soon as it is read, before its colon.
-/

namespace SchemaCodec.Json

/-- What may come next at one level of a text. -/
inductive Place where
  /-- The value of the whole text. -/
  | root
  /-- An item, or the end of an array that has none. -/
  | firstItem
  /-- An item behind a comma. -/
  | item
  /-- A comma, or the end of the array. -/
  | itemEnd
  /-- A key, or the end of an object that has none. -/
  | firstKey
  /-- A key behind a comma. -/
  | key
  /-- The colon behind a key. -/
  | colon
  /-- The value behind a colon. -/
  | value
  /-- A comma, or the end of the object. -/
  | valueEnd
deriving DecidableEq

namespace Place

/-- Reads the start of a value, after which the machine goes on with `rest`. -/
def startValue (rest : List Place) : Token → Option (List (Event Scalar) × List Place)
  | .scalar s => some ([.leaf s], rest)
  | .openArray => some ([.openList], firstItem :: rest)
  | .openObject => some ([.openMap], firstKey :: rest)
  | _ => none

/-- Reads a key. -/
def startField (rest : List Place) : Token → Option (List (Event Scalar) × List Place)
  | .scalar (.string s) => some ([.leaf (.string s)], colon :: rest)
  | _ => none

/-- One step of the machine. -/
def step : List Place → Token → Option (List (Event Scalar) × List Place)
  | [], _ => none
  | root :: rest, t => startValue rest t
  | firstItem :: rest, .closeArray => some ([.closeList], rest)
  | firstItem :: rest, t => startValue (itemEnd :: rest) t
  | item :: rest, t => startValue (itemEnd :: rest) t
  | itemEnd :: rest, .comma => some ([], item :: rest)
  | itemEnd :: rest, .closeArray => some ([.closeList], rest)
  | itemEnd :: _, _ => none
  | firstKey :: rest, .closeObject => some ([.closeMap], rest)
  | firstKey :: rest, t => startField rest t
  | key :: rest, t => startField rest t
  | colon :: rest, .colon => some ([], value :: rest)
  | colon :: _, _ => none
  | value :: rest, t => startValue (valueEnd :: rest) t
  | valueEnd :: rest, .comma => some ([], key :: rest)
  | valueEnd :: rest, .closeObject => some ([.closeMap], rest)
  | valueEnd :: _, _ => none

/-- Runs the machine over tokens; the text is complete if nothing is left open at its end. -/
def run (complete : Bool) : List Place → List Token → Reading (Event Scalar)
  | places, [] => ⟨[], complete && places.isEmpty⟩
  | places, t :: rest =>
    match step places t with
    | none => .fault
    | some (events, places') => (run complete places' rest).append events

end Place

/-- The events of a JSON text, up to the first fault. -/
def events (text : String) : Reading (Event Scalar) :=
  let tokens := Token.scan text.toList
  Place.run tokens.complete [.root] tokens.items

end SchemaCodec.Json
