import SchemaCodec.Json.Event

/-!
# JSON values from events

`Json.assemble?` builds a value from the events of a text. A key that occurs again replaces the
value at its first place. Arrays and objects may nest only so deep.
-/

namespace SchemaCodec.Json

/-- How a kind of leaf enters a JSON value. -/
structure LeafRule (σ : Type) where
  /-- The value of a leaf; `none` if it has none. -/
  value? : σ → Option Json
  /-- The key a leaf spells; `none` if it cannot be a key. -/
  key? : σ → Option String
  /-- How many arrays and objects may be open at once. -/
  depth : Nat

namespace Assembly

/-- An array or object that is still open. -/
inductive Frame where
  /-- The items so far, the last one first. -/
  | items (reversed : List Json)
  /-- The fields so far, the last one first; a key or the end comes next. -/
  | fields (reversed : Entries String Json)
  /-- The fields so far, and the key whose value comes next. -/
  | value (reversed : Entries String Json) (key : String)

end Assembly

/-- What has been built: the open arrays and objects, innermost first, and the finished value. -/
structure Assembly where
  frames : List Assembly.Frame
  result : Option Json

namespace Assembly

/-- Nothing built yet. -/
def start : Assembly := ⟨[], none⟩

/-- Puts a value at the current place. -/
def put (v : Json) : List Frame → Option Assembly
  | [] => some ⟨[], some v⟩
  | .items reversed :: rest => some ⟨.items (v :: reversed) :: rest, none⟩
  | .value reversed key :: rest => some ⟨.fields (reversed.insertFront key v) :: rest, none⟩
  | .fields _ :: _ => none

/-- Opens an array or object unless a key is due or the nesting is too deep. -/
def nest (depth : Nat) (frame : Frame) (frames : List Frame) : Option Assembly :=
  match frames with
  | .fields _ :: _ => none
  | _ => if frames.length < depth then some ⟨frame :: frames, none⟩ else none

/-- Takes in one event. -/
def step {σ : Type} (rule : LeafRule σ) (a : Assembly) (e : Event σ) : Option Assembly :=
  if a.result.isSome then none
  else
    match e, a.frames with
    | .leaf s, .fields reversed :: rest =>
      (rule.key? s).map fun key ↦ ⟨.value reversed key :: rest, none⟩
    | .leaf s, frames => (rule.value? s).bind fun v ↦ put v frames
    | .openList, frames => nest rule.depth (.items []) frames
    | .openMap, frames => nest rule.depth (.fields []) frames
    | .closeList, .items reversed :: rest => put (.array reversed.reverse) rest
    | .closeMap, .fields reversed :: rest => put (.object reversed.reverse) rest
    | _, _ => none

end Assembly

/-- The value that a complete reading spells. -/
def assemble? {σ : Type} (rule : LeafRule σ) (reading : Reading (Event σ)) : Option Json :=
  if reading.complete then
    (reading.items.foldlM (Assembly.step rule) Assembly.start).bind Assembly.result
  else none

/-- Scalars of JSON text stand for themselves; 127 levels may be open. -/
def leafRule : LeafRule Scalar where
  value? s := some (.scalar s)
  key? s := (Json.scalar s).string?
  depth := 127

/-- The value of a JSON text. -/
def parse? (text : String) : Option Json :=
  assemble? leafRule (events text)

end SchemaCodec.Json
