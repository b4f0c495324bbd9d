import ShaderDag.Document.Basic
import ShaderDag.Json.Token
import ShaderDag.Text.Utf8

/-!
# Reading documents

A document is read from JSON tokens from left to right, and the first problem met is reported, whether
it is one of the grammar or of the shape; nothing behind it is looked at.

* `Reader` — actions that read tokens;
* `Reader.entries`, `Reader.elements` — the members of an object and the elements of an array;
* `Reader.document` — a whole document, written as an object or as an array of its fields;
* `Document.ofText`, `Document.ofBytes` — a document from JSON text.
-/

namespace ShaderDag

/-- Actions that take tokens from the front of a list. -/
abbrev Reader := StateT (List Json.Token) (Except ReadProblem)

namespace Reader

variable {α : Type}

/-- The text is not JSON here. -/
def malformed : Reader α := throw .malformed

/-- The next token, without taking it. -/
def peek? : Reader (Option Json.Token) := return (← get).head?

/-- Takes the next token. -/
def skip : Reader Unit := modify List.tail

/-- Takes a token that has to be there. -/
def expect (token : Json.Token) : Reader Unit := do
  if (← peek?) = some token then skip else malformed

/-- Takes a token if it is there. -/
def accept (token : Json.Token) : Reader Bool := do
  if (← peek?) = some token then
    skip
    return true
  else return false

/-- Reports the value that starts with a token where another was expected. -/
def mismatch (expected : Expected) (token : Option Json.Token) : Reader α :=
  let refuse (found : Found) : Reader α := throw (.invalidType found expected)
  match token with
  | some .null => refuse .null
  | some (.boolean value) => refuse (.boolean value)
  | some (.number (.integer value)) => refuse (.integer value)
  | some (.number (.real value)) => refuse (.real value)
  | some (.text value) => refuse (.text value)
  | some .openBracket => refuse .sequence
  | some .openBrace => refuse .map
  | _ => malformed

/-! ### Single values -/

/-- A text. -/
def text : Reader String := do
  match ← peek? with
  | some (.text value) =>
    skip
    return value
  | token => mismatch .text token

/-- A truth value. -/
def boolean : Reader Bool := do
  match ← peek? with
  | some (.boolean value) =>
    skip
    return value
  | token => mismatch .boolean token

/-- A whole number of 32 bits, or null. -/
def word? : Reader (Option UInt32) := do
  match ← peek? with
  | some .null =>
    skip
    return none
  | some (.number (.integer value)) =>
    if 0 ≤ value ∧ value < twoTo 32 then
      skip
      return some value.toNat.toUInt32
    else throw (.invalidValue value)
  | token => mismatch .word token

/-- Null. -/
def unit : Reader Unit := do
  match ← peek? with
  | some .null => skip
  | token => mismatch .unit token

/-- One of a list of named values. -/
def variant (known : List (String × α)) (name : String) : Reader α :=
  match known.lookup name with
  | some value => return value
  | none => throw (.unknownVariant name (known.map (·.1)))

/-- A named value, written as its name or as an object with the name as its only key and null behind
it. -/
def named (known : List (String × α)) : Reader α := do
  match ← peek? with
  | some (.text name) =>
    skip
    variant known name
  | some .openBrace =>
    skip
    match ← peek? with
    | some (.text name) =>
      skip
      let value ← variant known name
      expect .colon
      unit
      expect .closeBrace
      return value
    | _ => malformed
  | _ => malformed

/-! ### Objects and arrays -/

/-- The rest of an object: `step` reads what follows a key, the colon included.  Each round takes at
least one token, so `count` rounds are enough for `count` tokens. -/
def entriesFrom (step : α → String → Reader α) : (count : Nat) → (first : Bool) → α → Reader α
  | 0, _, _ => malformed
  | count + 1, first, acc => do
    if ← accept .closeBrace then return acc
    unless first do expect .comma
    match ← peek? with
    | some (.text key) =>
      skip
      entriesFrom step count false (← step acc key)
    | _ => malformed

/-- The members of an object whose opening brace has been taken. -/
def entries (step : α → String → Reader α) (start : α) : Reader α := do
  entriesFrom step ((← get).length + 1) true start

/-- The rest of an array. -/
def elementsFrom (element : Reader α) : (count : Nat) → (first : Bool) → Reader (List α)
  | 0, _ => malformed
  | count + 1, first => do
    if ← accept .closeBracket then return []
    unless first do expect .comma
    let a ← element
    return a :: (← elementsFrom element count false)

/-- The elements of an array whose opening bracket has been taken. -/
def elements (element : Reader α) : Reader (List α) := do
  elementsFrom element ((← get).length + 1) true

/-- An element of an array of fields, or none at the end of the array. -/
def element? (first : Bool) (element : Reader α) : Reader (Option α) := do
  if (← peek?) = some .closeBracket then return none
  unless first do expect .comma
  return some (← element)

/-- A field that may be missing at the end of an array of fields. -/
def elementD (first : Bool) (default : α) (element : Reader α) : Reader α :=
  return (← element? first element).getD default

/-- A field that may not be missing, with its place in the array. -/
def elementAt (index : Nat) (expected : Expected) (fields : Nat) (element : Reader α) : Reader α := do
  match ← element? (index == 0) element with
  | some a => return a
  | none => throw (.invalidLength index expected fields)

/-- A field of an object: it may be given once. -/
def field (name : String) (old : Option α) (value : Reader α) : Reader (Option α) := do
  if old.isSome then throw (.duplicateField name)
  expect .colon
  return some (← value)

/-- A field that has to be given. -/
def required (name : String) : Option α → Reader α
  | some a => return a
  | none => throw (.missingField name)

/-! ### Inputs -/

/-- The kinds by name. -/
def kinds : List (String × Kind) := Kind.all.map fun k => (k.name, k)

/-- The precisions by name. -/
def precisions : List (String × Precision) := Precision.all.map fun p => (p.name, p)

/-- The inputs of a document: an object from names to kinds. -/
def inputs : Reader InputTable := do
  match ← peek? with
  | some .openBrace =>
    skip
    entries (fun acc name => do
      expect .colon
      return acc.insert name (← named kinds)) InputTable.empty
  | token => mismatch .map token

/-! ### Definitions -/

/-- The fields of a definition that have been read. -/
structure DefinitionFields where
  name : Option String
  source : Option String
  varying : Option Bool

/-- The names of a definition's fields. -/
def definitionFields : List String := ["name", "expr", "varying"]

/-- One field of a definition. -/
def definitionField (acc : DefinitionFields) (key : String) : Reader DefinitionFields := do
  match key with
  | "name" => return { acc with name := ← field key acc.name text }
  | "expr" => return { acc with source := ← field key acc.source text }
  | "varying" => return { acc with varying := ← field key acc.varying boolean }
  | _ => throw (.unknownField key definitionFields)

/-- A definition, as an object or as an array of its fields. -/
def definition : Reader Definition := do
  match ← peek? with
  | some .openBrace =>
    skip
    let fields ← entries definitionField ⟨none, none, none⟩
    let name ← required "name" fields.name
    let source ← required "expr" fields.source
    return ⟨name, source, fields.varying.getD false⟩
  | some .openBracket =>
    skip
    let name ← elementAt 0 .definition 3 text
    let source ← elementAt 1 .definition 3 text
    let varying ← elementD false false boolean
    expect .closeBracket
    return ⟨name, source, varying⟩
  | token => mismatch .definition token

/-- The definitions of a document. -/
def definitions : Reader (List Definition) := do
  match ← peek? with
  | some .openBracket =>
    skip
    elements definition
  | token => mismatch .sequence token

/-! ### Options -/

/-- The fields of the options that have been read. -/
structure OptionFields where
  precision : Option Precision
  version : Option (Option UInt32)

/-- The names of the options. -/
def optionFields : List String := ["float_precision", "version"]

/-- One option. -/
def optionField (acc : OptionFields) (key : String) : Reader OptionFields := do
  match key with
  | "float_precision" => return { acc with precision := ← field key acc.precision (named precisions) }
  | "version" => return { acc with version := ← field key acc.version word? }
  | _ => throw (.unknownField key optionFields)

/-- The options of a document, as an object or as an array. -/
def options : Reader Options := do
  match ← peek? with
  | some .openBrace =>
    skip
    let fields ← entries optionField ⟨none, none⟩
    return ⟨fields.precision.getD Options.standard.precision,
      fields.version.getD Options.standard.version⟩
  | some .openBracket =>
    skip
    let precision ← elementD true Options.standard.precision (named precisions)
    let version ← elementD false Options.standard.version word?
    expect .closeBracket
    return ⟨precision, version⟩
  | token => mismatch .options token

/-! ### Documents -/

/-- The fields of a document that have been read. -/
structure DocumentFields where
  attributes : Option InputTable
  uniforms : Option InputTable
  definitions : Option (List Definition)
  position : Option String
  colour : Option String
  options : Option Options

/-- The names of a document's fields. -/
def documentFields : List String :=
  ["attributes", "uniforms", "defs", "vertex_position", "fragment_colour", "options"]

/-- One field of a document. -/
def documentField (acc : DocumentFields) (key : String) : Reader DocumentFields := do
  match key with
  | "attributes" => return { acc with attributes := ← field key acc.attributes inputs }
  | "uniforms" => return { acc with uniforms := ← field key acc.uniforms inputs }
  | "defs" => return { acc with definitions := ← field key acc.definitions definitions }
  | "vertex_position" => return { acc with position := ← field key acc.position text }
  | "fragment_colour" => return { acc with colour := ← field key acc.colour text }
  | "options" => return { acc with options := ← field key acc.options options }
  | _ => throw (.unknownField key documentFields)

/-- A document, as an object or as an array of its fields. -/
def document : Reader Document := do
  match ← peek? with
  | some .openBrace =>
    skip
    let fields ← entries documentField ⟨none, none, none, none, none, none⟩
    let position ← required "vertex_position" fields.position
    let colour ← required "fragment_colour" fields.colour
    return ⟨fields.attributes.getD .empty, fields.uniforms.getD .empty, fields.definitions.getD [],
      position, colour, fields.options.getD .standard⟩
  | some .openBracket =>
    skip
    let attributes ← elementD true .empty inputs
    let uniforms ← elementD false .empty inputs
    let defs ← elementD false [] definitions
    let position ← elementAt 3 .program 6 text
    let colour ← elementAt 4 .program 6 text
    let opts ← elementD false .standard options
    expect .closeBracket
    return ⟨attributes, uniforms, defs, position, colour, opts⟩
  | token => mismatch .program token

/-- A document and nothing behind it. -/
def wholeDocument : Reader Document := do
  let doc ← document
  if (← get).isEmpty then return doc else malformed

end Reader

namespace Document

/-- The document that a list of characters spells. -/
def ofCharacters (cs : List Char) : Except Failure Document :=
  match (Reader.wholeDocument.run (Json.tokenize cs)) with
  | .ok (doc, _) => .ok doc
  | .error problem => .error (.ofCause (.unreadableDocument problem))

/-- The document that a text spells. -/
def ofText (text : String) : Except Failure Document := ofCharacters text.toList

/-- The document that a byte string spells. -/
def ofBytes (bytes : List UInt8) : Except Failure Document := ofCharacters (charactersOf bytes)

end Document

end ShaderDag
