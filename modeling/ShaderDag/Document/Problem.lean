import ShaderDag.Json.Number
import ShaderDag.Text.Printable

/-!
# What can be wrong with a document's text

* `quoted` — text as messages show it;
* `Found` — a value that stands where another was expected;
* `Expected` — what was expected there;
* `ReadProblem` — a reason to refuse a document, with its wording.
-/

namespace ShaderDag

/-! ### Quoted text -/

/-- One character of a quoted text. -/
def quotedChar (c : Char) : List Char :=
  if c == '"' then ['\\', '"']
  else if c == '\\' then ['\\', '\\']
  else if c == '\t' then ['\\', 't']
  else if c == '\r' then ['\\', 'r']
  else if c == '\n' then ['\\', 'n']
  else if c == '\x00' then ['\\', '0']
  else if showsAlone c then [c]
  else ['\\', 'u', '\x7b'] ++ Nat.toDigits 16 c.toNat ++ ['\x7d']

/-- A text between double quotes; quotes, backslashes, common controls and all characters that do not show on
their own are written as escapes. -/
def quoted (text : String) : String :=
  String.ofList ('"' :: text.toList.flatMap quotedChar ++ ['"'])

/-! ### Problems -/

/-- A JSON value as messages describe it. -/
inductive Found where
  | null
  | boolean (value : Bool)
  | integer (value : Int)
  | real (value : Json.Real)
  | text (value : String)
  | sequence
  | map
deriving DecidableEq, Repr

/-- The description of a value. -/
def Found.description : Found → String
  | null => "null"
  | boolean value => "boolean `" ++ (if value then "true" else "false") ++ "`"
  | integer value => "integer `" ++ toString value ++ "`"
  | real value => "floating point `" ++ value.text ++ "`"
  | text value => "string " ++ quoted value
  | sequence => "sequence"
  | map => "map"

/-- What a document holds at some place. -/
inductive Expected where
  | program
  | definition
  | options
  | map
  | sequence
  | text
  | boolean
  | word
  | unit
deriving DecidableEq, Repr

/-- The description of an expectation. -/
def Expected.description : Expected → String
  | program => "struct ProgramSource"
  | definition => "struct DefSource"
  | options => "struct ShaderOpts"
  | map => "a map"
  | sequence => "a sequence"
  | text => "a string"
  | boolean => "a boolean"
  | word => "u32"
  | unit => "unit"

/-- A reason to refuse a document. -/
inductive ReadProblem where
  | malformed
  | invalidType (found : Found) (expected : Expected)
  | invalidValue (value : Int)
  | invalidLength (length : Nat) (expected : Expected) (fields : Nat)
  | unknownVariant (name : String) (known : List String)
  | unknownField (name : String) (known : List String)
  | duplicateField (name : String)
  | missingField (name : String)
deriving DecidableEq, Repr

/-- The alternatives of a message: two are joined by "or", more are listed. -/
def alternatives (known : List String) : String :=
  let quotedNames := known.map fun name => "`" ++ name ++ "`"
  match quotedNames with
  | [a, b] => a ++ " or " ++ b
  | names => "one of " ++ ", ".intercalate names

/-- The wording of a problem. -/
def ReadProblem.text : ReadProblem → String
  | malformed => "malformed JSON"
  | invalidType found expected =>
    "invalid type: " ++ found.description ++ ", expected " ++ expected.description
  | invalidValue value =>
    "invalid value: integer `" ++ toString value ++ "`, expected " ++ Expected.word.description
  | invalidLength length expected fields =>
    "invalid length " ++ toString length ++ ", expected " ++ expected.description ++ " with " ++
      toString fields ++ " elements"
  | unknownVariant name known => "unknown variant `" ++ name ++ "`, expected " ++ alternatives known
  | unknownField name known => "unknown field `" ++ name ++ "`, expected " ++ alternatives known
  | duplicateField name => "duplicate field `" ++ name ++ "`"
  | missingField name => "missing field `" ++ name ++ "`"

end ShaderDag
