import SchemaCodec.Files.Readers
import SchemaCodec.Settings.OfJson
import SchemaCodec.Settings.OfYaml
import SchemaCodec.Yaml.Reader

/-!
# The readers of the executables

Of YAML they read a part only (see `SchemaCodec.Yaml.Token`), and a text that they do not read is
malformed, without further detail.
-/

namespace SchemaCodec

/-- The value that a text denotes, where one was found. -/
def Readers.found : Option Json → Except String Json
  | some value => .ok value
  | none => .error "malformed"

/-- The readers of the executables. -/
def Readers.builtIn : Readers where
  document
    | .json, text => found (Json.parse? text)
    | .yaml, text => found (Yaml.parse? text)
  settings
    | .json, text => Settings.ofJson text
    | .yaml, text => Settings.ofYaml text

end SchemaCodec
