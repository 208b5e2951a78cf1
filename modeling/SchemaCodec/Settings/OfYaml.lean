import SchemaCodec.Json.Printer
import SchemaCodec.Settings.Decoder
import SchemaCodec.Text.Quoted
import SchemaCodec.Yaml.Event

/-!
# Settings in YAML

Settings are a mapping. A key that holds a string takes any scalar as it is spelled, and what was
left out may stand for an empty list or for no settings at all.
-/

namespace SchemaCodec.Settings

/-- Floats are written out in full, and a tie goes to the greater decimal. -/
def floatStyle : Binary64.Style :=
  ⟨⟨none, none⟩, .up⟩

/-- What a YAML scalar is called in a message. -/
def describeMeaning : Yaml.Meaning → String
  | .null => "unit value"
  | .bool b => "boolean `" ++ (Json.Scalar.bool b).text ++ "`"
  | .integer i =>
    "integer `" ++ Json.integerText i ++ "`" ++
      (if i < -(twoTo 63 : Int) then " as i128" else if (twoTo 64 : Int) ≤ i then " as u128" else "")
  | .float x => "floating point `" ++ x.text floatStyle ++ "`"
  | .nonFinite text => "floating point `" ++ text ++ "`"
  | .string s => "string " ++ Text.quoted s

/-- Settings in YAML: any scalar may be a string, and an omitted value is empty. -/
def yamlDialect : Dialect Yaml.Scalar where
  string? s := some s.text
  key? s := some s.text
  describe s := describeMeaning s.meaning
  isEmpty s := s.isEmpty
  positional := false
  emptyText := true
  trailing := false

/-- The settings in a YAML text. -/
def ofYaml (text : String) : Except Rejection Settings :=
  (decode yamlDialect (Yaml.events text)).mapError (Problem.rejection true)

end SchemaCodec.Settings
