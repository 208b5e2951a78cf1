import SchemaCodec.Codec.Expr
import SchemaCodec.TypeExpr.Printer
import SchemaCodec.Declaration.Basic

/-!
# The emitted module

Every declaration becomes a binding: a constant that holds its codec and a type alias of the same
name. A codec can only be built at once if everything it names is bound on an earlier line;
otherwise it is wrapped so that it is built on first use. A module is a preamble line, all
constants, and then all aliases.
-/

namespace SchemaCodec

/-- A declaration as it is emitted. -/
structure Binding where
  name : String
  type : TypeExpr
  /-- Whether the codec is built on first use only. -/
  deferred : Bool

namespace Binding

/-- Whether a type names the declaration at `index` or a later one. -/
def refersForward (ds : List Declaration) (index : Nat) (t : TypeExpr) : Bool :=
  t.references.any fun name ↦ (Declaration.position? name ds).any fun i ↦ index ≤ i.val

/-- The bindings of declarations in the given order. -/
def ofDeclarations (ds : List Declaration) : List Binding :=
  ds.mapIdx fun i d ↦ ⟨d.name, d.type, refersForward ds i d.type⟩

/-- The codec of a binding. -/
def codec (b : Binding) : CodecExpr :=
  CodecExpr.ofType b.type

/-- The constant that holds the codec. -/
def constant (b : Binding) : String :=
  if b.deferred then
    "const " ++ b.name ++ ": t.Type<" ++ b.name ++ "> = t.recursion(" ++ Json.quote b.name ++
      ", () => " ++ b.codec.text ++ ");"
  else "const " ++ b.name ++ " = " ++ b.codec.text ++ ";"

/-- The type alias. -/
def aliasLine (b : Binding) : String :=
  "type " ++ b.name ++ " = " ++ b.type.text ++ ";"

end Binding

/-- A module to be emitted. -/
structure Module where
  preamble : Option String
  bindings : List Binding

namespace Module

/-- The lines of a module; only the preamble can hold a line break of its own. -/
def lines (m : Module) : List String :=
  m.preamble.toList ++ m.bindings.map (fun b ↦ "export " ++ b.constant) ++
    m.bindings.map (fun b ↦ "export " ++ b.aliasLine)

/-- The text of a module: its lines, a break between them, and a break at the end. -/
def text (m : Module) : String :=
  "\n".intercalate m.lines ++ "\n"

end Module

end SchemaCodec
