import ShaderDag.Command.Basic
import ShaderDag.Command.Files
import ShaderDag.Command.Path
import ShaderDag.Command.Tree
import ShaderDag.Digest.Bytes
import ShaderDag.Digest.Xxh3
import ShaderDag.Document.Basic
import ShaderDag.Document.Inputs
import ShaderDag.Document.Problem
import ShaderDag.Document.Reader
import ShaderDag.Document.Writer
import ShaderDag.Failure
import ShaderDag.Glsl.Assembly
import ShaderDag.Glsl.Hoist
import ShaderDag.Glsl.Printer
import ShaderDag.Glsl.Stage
import ShaderDag.Glsl.Term
import ShaderDag.Graph.Build
import ShaderDag.Graph.Node
import ShaderDag.Graph.Occurrence
import ShaderDag.Graph.Pool
import ShaderDag.Graph.Table
import ShaderDag.Graph.Walk
import ShaderDag.Graph.Workspace
import ShaderDag.Json.Number
import ShaderDag.Json.Token
import ShaderDag.Json.Writer
import ShaderDag.Kind
import ShaderDag.Main
import ShaderDag.Name
import ShaderDag.Number.Binary
import ShaderDag.Number.Constant
import ShaderDag.Number.Decimal
import ShaderDag.Number.Shortest
import ShaderDag.Proofs.Walk
import ShaderDag.Signature
import ShaderDag.Text.Compile
import ShaderDag.Text.Parser
import ShaderDag.Text.Lexer
import ShaderDag.Text.Printable
import ShaderDag.Text.Token
import ShaderDag.Text.Utf8
import ShaderDag.Typed
import ShaderDag.Proofs.Pool
import ShaderDag.Proofs.Workspace
import ShaderDag.Proofs.Construction
import ShaderDag.Proofs.Session
import ShaderDag.Proofs.Canonical
import ShaderDag.Proofs.Binder
import ShaderDag.Proofs.Naming
import ShaderDag.Proofs.Probing
import ShaderDag.Proofs.Inputs
import ShaderDag.Proofs.Occurrence
import ShaderDag.Proofs.FullWalk
import ShaderDag.Proofs.PathCount
import ShaderDag.Proofs.Hoist
import ShaderDag.Proofs.Assembly
import ShaderDag.Proofs.Hygiene
import ShaderDag.Proofs.Meaning
import ShaderDag.Proofs.Twin
import ShaderDag.Proofs.Structure
import ShaderDag.Proofs.Expansion
import ShaderDag.Proofs.Automaton
import ShaderDag.Proofs.Grammar
import ShaderDag.Proofs.Position
import ShaderDag.Proofs.Descent
import ShaderDag.Proofs.Adoption
import ShaderDag.Proofs.Typing
import ShaderDag.Proofs.Lowering
import ShaderDag.Proofs.Spelling
import ShaderDag.Proofs.RoundTrip
import ShaderDag.Proofs.Printing
import ShaderDag.Proofs.Blocks
import ShaderDag.Proofs.Kinding
import ShaderDag.Proofs.Linking
import ShaderDag.Proofs.Equality
import ShaderDag.Proofs.Agreement
import ShaderDag.Proofs.Layout
import ShaderDag.Proofs.Emission
import ShaderDag.Proofs.Glossary
import ShaderDag.Proofs.Documents
import ShaderDag.Proofs.Inlining
import ShaderDag.Proofs.Transparency
import ShaderDag.Proofs.Iteration
import ShaderDag.Proofs.Frame
import ShaderDag.Proofs.Refusal
import ShaderDag.Proofs.Table
import ShaderDag.Proofs.Tables
import ShaderDag.Proofs.JsonText
import ShaderDag.Proofs.Reading
import ShaderDag.Proofs.Varyings
import ShaderDag.Proofs.ByteScan
import ShaderDag.Proofs.Viable
import ShaderDag.Proofs.Interval
import ShaderDag.Proofs.Literal
import ShaderDag.Proofs.HashInput
import ShaderDag.Proofs.Declarable
import ShaderDag.Proofs.Fractions
import ShaderDag.Proofs.NearMiss
import ShaderDag.Proofs.DoubleRounding
import ShaderDag.Proofs.Rereading
