import ShaderDag.Document.Basic
import ShaderDag.Json.Writer

/-!
# Writing documents

* `Document.tokens` — the JSON tokens of a document, every field included;
* `Document.text` — its JSON text.
-/

namespace ShaderDag

namespace Json

/-- Items with commas between them. -/
def separated : List (List Token) → List Token
  | [] => []
  | [item] => item
  | item :: items => item ++ .comma :: separated items

/-- An array. -/
def arrayTokens (items : List (List Token)) : List Token :=
  .openBracket :: separated items ++ [.closeBracket]

/-- An object. -/
def objectTokens (members : List (String × List Token)) : List Token :=
  .openBrace :: separated (members.map fun (key, value) => .text key :: .colon :: value) ++
    [.closeBrace]

end Json

open Json

/-- The inputs of a document. -/
def InputTable.tokens (inputs : InputTable) : List Json.Token :=
  objectTokens (inputs.entries.map fun (name, kind) => (name, [.text kind.name]))

/-- A definition of a document. -/
def Definition.tokens (d : Definition) : List Json.Token :=
  objectTokens
    [("name", [.text d.name]), ("expr", [.text d.source]), ("varying", [.boolean d.varying])]

/-- The options of a document. -/
def Options.tokens (o : Options) : List Json.Token :=
  objectTokens
    [("float_precision", [.text o.precision.name]),
      ("version",
        match o.version with
        | some version => [.number (.integer version.toNat)]
        | none => [.null])]

namespace Document

/-- The tokens of a document. -/
def tokens (doc : Document) : List Json.Token :=
  objectTokens
    [("attributes", doc.attributes.tokens), ("uniforms", doc.uniforms.tokens),
      ("defs", arrayTokens (doc.definitions.map Definition.tokens)),
      ("vertex_position", [.text doc.position]), ("fragment_colour", [.text doc.colour]),
      ("options", doc.options.tokens)]

/-- The JSON text of a document. -/
def text (doc : Document) : String := writeTokens doc.tokens

end Document

end ShaderDag
