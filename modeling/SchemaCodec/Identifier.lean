import SchemaCodec.Json.Printer

/-!
# Identifiers of the emitted module

A declaration is bound both by `const` and by `type`, so its name must be an identifier that neither
position reserves. A property key needs no such care: any identifier may stand bare, and every other
key is written as a string.
-/

namespace SchemaCodec.Identifier

/-- Characters that may start an identifier. -/
def isStart (c : Char) : Bool :=
  decide ('a' ≤ c ∧ c ≤ 'z') || decide ('A' ≤ c ∧ c ≤ 'Z') || c == '_' || c == '$'

/-- Characters that may continue an identifier. -/
def isPart (c : Char) : Bool :=
  isStart c || decide ('0' ≤ c ∧ c ≤ '9')

/-- Whether characters spell an identifier. -/
def isSpelling : List Char → Bool
  | [] => false
  | c :: rest => isStart c && rest.all isPart

/-- Whether a text is an identifier, reserved or not. -/
def isIdentifier (name : String) : Bool :=
  isSpelling name.toList

/-- Words of the target language that cannot name a constant or a type alias: its reserved words,
those reserved in strict mode and in modules, and the names of its predefined types. -/
def reservedWords : List String :=
  ["break", "case", "catch", "class", "const", "continue", "debugger", "default", "delete",
   "do", "else", "enum", "export", "extends", "false", "finally", "for", "function", "if",
   "import", "in", "instanceof", "new", "null", "return", "super", "switch", "this",
   "throw", "true", "try", "typeof", "var", "void", "while", "with",
   "arguments", "await", "eval", "implements", "interface", "let", "package", "private",
   "protected", "public", "static", "yield",
   "any", "bigint", "boolean", "never", "number", "object", "string", "symbol",
   "undefined", "unknown"]

/-- Whether a name can be bound by both `const` and `type`. -/
def isDeclarationName (name : String) : Bool :=
  isIdentifier name && !reservedWords.contains name

/-- A property key as it is written: bare if it is an identifier and quoted otherwise. -/
def propertyKey (name : String) : String :=
  if isIdentifier name then name else Json.quote name

end SchemaCodec.Identifier
