import SchemaCodec.Files.Path
import SchemaCodec.Json.Basic
import SchemaCodec.Settings.OfText

/-!
# The libraries that read texts

Documents and settings are written in JSON or in YAML, and the program leaves both to libraries.
What it does with a text only depends on what the library makes of it, so the libraries are a
parameter of everything that reads files.
-/

namespace SchemaCodec

/-- The formats that texts are written in. -/
inductive Format where
  | json
  | yaml
deriving DecidableEq

/-- A file is JSON if its extension says so, and YAML otherwise. -/
def Format.ofPath (path : String) : Format :=
  if Path.isJson path then .json else .yaml

/-- The name of a format. -/
def Format.text : Format → String
  | json => "JSON"
  | yaml => "YAML"

/-- What the libraries make of a text. -/
structure Readers where
  /-- The value that a text denotes, or the error of the library. -/
  document : Format → String → Except String Json
  /-- The settings that a text gives, or what the library rejects. -/
  settings : Format → String → Except Settings.Rejection Settings

end SchemaCodec
