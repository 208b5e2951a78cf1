import SchemaCodec.Json.Event
import SchemaCodec.Json.Printer
import SchemaCodec.Settings.Decoder
import SchemaCodec.Text.Quoted

/-!
# Settings in JSON

Settings may be an object or, by position, an array. Text behind them is ignored.
-/

namespace SchemaCodec.Settings

/-- What a JSON scalar is called in a message. -/
def describeScalar : Json.Scalar → String
  | .null => "null"
  | .bool b => "boolean `" ++ (Json.Scalar.bool b).text ++ "`"
  | .number (.integer i) => "integer `" ++ (Json.Number.integer i).text ++ "`"
  | .number (.binary x) => "floating point `" ++ (Json.Number.binary x).text ++ "`"
  | .string s => "string " ++ Text.quoted s

/-- The string that a JSON scalar is. -/
def scalarString? : Json.Scalar → Option String
  | .string s => some s
  | _ => none

/-- Settings in JSON: strings are strings, and a list may fill the keys by position. -/
def jsonDialect : Dialect Json.Scalar where
  string? := scalarString?
  key? := scalarString?
  describe := describeScalar
  isEmpty _ := false
  positional := true
  emptyText := false
  trailing := true

/-- The settings in a JSON text. -/
def ofJson (text : String) : Except Rejection Settings :=
  (decode jsonDialect (Json.events text)).mapError (Problem.rejection false)

end SchemaCodec.Settings
