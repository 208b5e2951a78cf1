/-!
# Settings

The names that steer a compilation: how the declaration of the whole document is called, which
definitions are scaffolding, and the suffix of the synthesized declarations.
-/

namespace SchemaCodec

/-- The settings of a compilation. -/
structure Settings where
  /-- The declaration built from the whole document. -/
  toplevel : String := "JSONSchemaObject"
  /-- The definition merged into every synthesized declaration. -/
  envelope : String := "JSSTTopLevel"
  /-- The catch-all definition. -/
  anything : String := "JSSTAnything"
  /-- Definitions that only serve to write schemas. -/
  proto : List String :=
    ["JSSTProtoInteger", "JSSTProtoNumber", "JSSTProtoString", "JSSTProtoArray"]
  /-- What a synthesized declaration adds to the name of its definition. -/
  topLevelSuffix : String := "TopLevel"
  /-- The first line of the emitted module. -/
  preamble : String := "import * as t from \"io-ts\";"
deriving DecidableEq

namespace Settings

/-- Whether a definition is scaffolding, which gets no synthesized declaration. -/
def isReserved (s : Settings) (name : String) : Bool :=
  name == s.envelope || name == s.anything || s.proto.contains name

/-- The name of the declaration synthesized for a definition. -/
def topLevelName (s : Settings) (definition : String) : String :=
  definition ++ s.topLevelSuffix

end Settings

end SchemaCodec
