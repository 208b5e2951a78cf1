import SchemaCodec.Acceptance
import SchemaCodec.Dependency.Order
import SchemaCodec.Module
import SchemaCodec.Settings.Basic
import SchemaCodec.TypeExpr.OfSchema

/-!
# Compilation of a schema document

Every definition of a document becomes a declaration; every definition that is not scaffolding also
gets a declaration that merges it with the envelope; and the rest of the document becomes the
top-level declaration. A compilation fails as a whole or yields all of them in dependency order.
-/

namespace SchemaCodec

/-- Why a document does not compile. -/
inductive CompileError where
  /-- The document is not an object but a value of the given kind. -/
  | rootNotObject (found : String)
  /-- The definitions are not an object but a value of the given kind. -/
  | definitionsNotObject (found : String)
  /-- The name cannot be bound in the emitted module. -/
  | invalidName (name : String)
  /-- The top-level name is already declared. -/
  | duplicate (name : String)
  /-- A declaration names something that is not declared. -/
  | unresolved (name referencedBy : String)
deriving DecidableEq

/-- The wording of a failure. -/
def CompileError.message : CompileError → String
  | .rootNotObject found =>
    "invalid schema document: expected an object at the document root, found " ++ found
  | .definitionsNotObject found =>
    "invalid schema document: expected `definitions` to be an object, found " ++ found
  | .invalidName name => "invalid declaration name `" ++ name ++ "`"
  | .duplicate name => "duplicate declaration `" ++ name ++ "`"
  | .unresolved name referencedBy =>
    "unresolved reference `" ++ name ++ "` in declaration `" ++ referencedBy ++ "`"

namespace Declaration

/-- The definitions of a document. -/
def definitions (root : Entries String Json) : Except CompileError (Entries String Json) :=
  match root.get? "definitions" with
  | none => .ok []
  | some (.object fields) => .ok fields
  | some other => .error (.definitionsNotObject other.kind)

/-- The type of the declaration synthesized for a definition. -/
def enveloped (settings : Settings) (definition : String) : TypeExpr :=
  .intersection [.named definition, .named settings.envelope]

/-- The types of the definitions and, behind them, those synthesized from them. A synthesized name
that is also written as a definition takes its place. -/
def definedTypes (settings : Settings) (definitions : Entries String Json) :
    Entries String TypeExpr :=
  let written : Entries String TypeExpr :=
    definitions.foldl (fun types p ↦ types.insert p.1 (.ofSchema p.2)) []
  (definitions.keys.filter fun name ↦ !settings.isReserved name).foldl
    (fun types name ↦ types.insert (settings.topLevelName name) (enveloped settings name)) written

/-- The declarations of a document, in the order of their collection. -/
def collect (settings : Settings) (document : Json) : Except CompileError (List Declaration) :=
  match document with
  | .object root =>
    match definitions root with
    | .error e => .error e
    | .ok written =>
      let types := definedTypes settings written
      if (types.get? settings.toplevel).isSome then .error (.duplicate settings.toplevel)
      else
        let body : Json := .object (root.filter fun p ↦ p.1 != "definitions")
        let declarations := (types.insert settings.toplevel (.ofSchema body)).map fun p ↦
          (⟨p.1, p.2⟩ : Declaration)
        match declarations.find? fun d ↦ !Identifier.isDeclarationName d.name with
        | some d => .error (.invalidName d.name)
        | none => .ok declarations
  | other => .error (.rootNotObject other.kind)

/-- The first name that no declaration has, with the declaration that mentions it. -/
def unresolved? (ds : List Declaration) : Option (String × String) :=
  ds.findSome? fun d ↦
    (d.type.references.find? fun name ↦ !ds.any fun e ↦ e.name == name).map fun name ↦
      (name, d.name)

/-- Fails on the first name that no declaration has. -/
def resolve (ds : List Declaration) : Except CompileError Unit :=
  match unresolved? ds with
  | some (name, referencedBy) => .error (.unresolved name referencedBy)
  | none => .ok ()

end Declaration

/-- A compiled document: its declarations in dependency order. -/
structure Compilation where
  declarations : List Declaration

namespace Compilation

/-- The names of the declarations in order. -/
def names (c : Compilation) : List String :=
  c.declarations.map Declaration.name

/-- The declaration with a name. -/
def get? (c : Compilation) (name : String) : Option Declaration :=
  c.declarations.find? fun d ↦ d.name == name

/-- The declarations as they are emitted. -/
def bindings (c : Compilation) : List Binding :=
  Binding.ofDeclarations c.declarations

/-- The emitted module behind a preamble. -/
def toModule (c : Compilation) (preamble : String) : Module :=
  ⟨some preamble, c.bindings⟩

/-- Whether the declaration with this name accepts a value; `none` if there is none. -/
def check? (c : Compilation) (name : String) (v : Json) : Option Bool :=
  Declaration.check? c.declarations name v

end Compilation

/-- Compiles a document. -/
def compile (settings : Settings) (document : Json) : Except CompileError Compilation := do
  let declarations ← Declaration.collect settings document
  Declaration.resolve declarations
  return ⟨Declaration.sort declarations⟩

end SchemaCodec
