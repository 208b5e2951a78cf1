import SchemaCodec.Acceptance
import SchemaCodec.Binary64.Basic
import SchemaCodec.Binary64.Shortest
import SchemaCodec.Codec.Expr
import SchemaCodec.Command.Basic
import SchemaCodec.Command.Run
import SchemaCodec.Command.Usage
import SchemaCodec.Compilation
import SchemaCodec.Decimal
import SchemaCodec.Declaration.Basic
import SchemaCodec.Dependency.Cycles
import SchemaCodec.Dependency.Graph
import SchemaCodec.Dependency.Order
import SchemaCodec.Entries
import SchemaCodec.Files.Access
import SchemaCodec.Files.BuiltIn
import SchemaCodec.Files.Path
import SchemaCodec.Files.Readers
import SchemaCodec.Files.Source
import SchemaCodec.Files.System
import SchemaCodec.Files.Tree
import SchemaCodec.Identifier
import SchemaCodec.Json.Basic
import SchemaCodec.Json.Event
import SchemaCodec.Json.Printer
import SchemaCodec.Json.Reader
import SchemaCodec.Json.Token
import SchemaCodec.Main
import SchemaCodec.Module
import SchemaCodec.Proofs.Acceptance.Derivation
import SchemaCodec.Proofs.Declaration.Denotation
import SchemaCodec.Proofs.Json.Matching
import SchemaCodec.Reading
import SchemaCodec.Samples
import SchemaCodec.Schema.Shape
import SchemaCodec.Settings.Basic
import SchemaCodec.Settings.Decoder
import SchemaCodec.Settings.OfJson
import SchemaCodec.Settings.OfText
import SchemaCodec.Settings.OfYaml
import SchemaCodec.Text.Quoted
import SchemaCodec.Text.Visible
import SchemaCodec.TypeExpr.Basic
import SchemaCodec.TypeExpr.OfSchema
import SchemaCodec.TypeExpr.Printer
import SchemaCodec.Yaml.Cursor
import SchemaCodec.Yaml.Event
import SchemaCodec.Yaml.Reader
import SchemaCodec.Yaml.Scalar
import SchemaCodec.Yaml.Token
import SchemaCodec.Proofs.Acceptance.Guard
import SchemaCodec.Proofs.Dependency.Reachability
import SchemaCodec.Proofs.Dependency.Schedule
import SchemaCodec.Proofs.Dependency.Progress
import SchemaCodec.Proofs.Dependency.Sort
import SchemaCodec.Proofs.Compilation.Collection
import SchemaCodec.Proofs.Schema.Reading
import SchemaCodec.Proofs.Compilation.Satisfaction
import SchemaCodec.Proofs.Module.Initialization
import SchemaCodec.Proofs.Dependency.OutOfOrder
import SchemaCodec.Proofs.Codec.Acceptance
import SchemaCodec.Proofs.Text.Decomposition
import SchemaCodec.Proofs.Binary64.ReadBack
import SchemaCodec.Proofs.Json.Spelling
import SchemaCodec.Proofs.Text.Phrase
import SchemaCodec.Proofs.Codec.Readability
import SchemaCodec.Proofs.TypeExpr.Readability
import SchemaCodec.Proofs.Compilation.Listing
import SchemaCodec.Proofs.Compilation.Outcome
import SchemaCodec.Proofs.Module.Layout
import SchemaCodec.Proofs.Dependency.Relabelling
import SchemaCodec.Proofs.Dependency.Restriction
import SchemaCodec.Proofs.Compilation.Extension
import SchemaCodec.Proofs.Json.Reordering
import SchemaCodec.Proofs.Schema.Mentions
import SchemaCodec.Proofs.Schema.Reordering
import SchemaCodec.Proofs.Compilation.Reordering
import SchemaCodec.Proofs.Command.Run
import SchemaCodec.Proofs.Compilation.Envelope
import SchemaCodec.Proofs.Command.Listing
import SchemaCodec.Proofs.Module.Capture
import SchemaCodec.Proofs.Dependency.Walk
import SchemaCodec.Proofs.Compilation.Inventory
import SchemaCodec.Proofs.Declaration.Renaming
import SchemaCodec.Proofs.Schema.Annotations
import SchemaCodec.Proofs.Schema.Expressible
import SchemaCodec.Proofs.Codec.Meaning
import SchemaCodec.Proofs.Codec.Members
import SchemaCodec.Proofs.Samples.Verdict
import SchemaCodec.Proofs.Dependency.Loop
import SchemaCodec.Proofs.Json.Path
import SchemaCodec.Proofs.Json.Preorder
import SchemaCodec.Proofs.Json.Grammar
import SchemaCodec.Proofs.Settings.Decoding
import SchemaCodec.Proofs.Lists
import SchemaCodec.Proofs.TypeExpr.Names
import SchemaCodec.Proofs.Settings.Documented
