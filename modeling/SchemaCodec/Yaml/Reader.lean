import SchemaCodec.Json.Reader
import SchemaCodec.Yaml.Event

/-!
# JSON values from YAML

A YAML text denotes a JSON value. Keys are taken as they are spelled. Integers must fit 64 bits,
floats without a finite value are null, and so is a text without content.
-/

namespace SchemaCodec.Yaml

/-- The JSON value of a scalar. -/
def Scalar.toJson? (s : Scalar) : Option Json :=
  match s.meaning with
  | .null => some .null
  | .bool b => some (.scalar (.bool b))
  | .integer i =>
    if -(twoTo 63 : Int) ≤ i ∧ i < twoTo 64 then some (.scalar (.number (.integer i)))
    else none
  | .float x => some (.scalar (.number (.binary x)))
  | .nonFinite _ => some .null
  | .string t => some (.string t)

/-- Scalars mean what they spell, keys are spelled out, and 128 levels may be open. -/
def leafRule : Json.LeafRule Scalar where
  value? := Scalar.toJson?
  key? s := some s.text
  depth := 128

/-- The JSON value of a YAML text. -/
def parse? (text : String) : Option Json :=
  let reading := events text
  if reading.complete && reading.items.isEmpty then some .null
  else Json.assemble? leafRule reading

end SchemaCodec.Yaml
