import ShaderDag.Json.Token

/-!
# Writing JSON text

* `Json.quote` — a text between quotes, with the escapes that JSON asks for;
* `Json.writeTokens` — tokens without blanks between them;
* `Json.writeObject` — an object of texts, one member a line.
-/

namespace ShaderDag

namespace Json

/-- A hexadecimal digit. -/
def hexDigit (n : Nat) : Char := Nat.digitChar n

/-- One character of a quoted text. -/
def quoteChar (c : Char) : List Char :=
  if c == '"' then ['\\', '"']
  else if c == '\\' then ['\\', '\\']
  else if c == '\x08' then ['\\', 'b']
  else if c == '\x0c' then ['\\', 'f']
  else if c == '\n' then ['\\', 'n']
  else if c == '\r' then ['\\', 'r']
  else if c == '\t' then ['\\', 't']
  else if c.toNat < 0x20 then
    ['\\', 'u', '0', '0', hexDigit (c.toNat / 16), hexDigit (c.toNat % 16)]
  else [c]

/-- A text between quotes. -/
def quote (text : String) : List Char := '"' :: text.toList.flatMap quoteChar ++ ['"']

/-- The characters of a number. -/
def Numeral.characters : Numeral → List Char
  | .integer value => (toString value).toList
  | .real value => value.text.toList

/-- The characters of a token. -/
def Token.characters : Token → List Char
  | openBrace => ['\x7b']
  | closeBrace => ['\x7d']
  | openBracket => ['[']
  | closeBracket => [']']
  | colon => [':']
  | comma => [',']
  | null => ['n', 'u', 'l', 'l']
  | boolean true => ['t', 'r', 'u', 'e']
  | boolean false => ['f', 'a', 'l', 's', 'e']
  | number value => value.characters
  | text value => quote value
  | broken => []

/-- The text of tokens, without blanks between them. -/
def writeTokens (tokens : List Token) : String := String.ofList (tokens.flatMap Token.characters)

/-- An object of texts: one member a line, behind two blanks. -/
def writeObject (members : List (String × String)) : String :=
  let lines := members.map fun (key, value) =>
    "  " ++ String.ofList (quote key) ++ ": " ++ String.ofList (quote value)
  "\x7b\n" ++ ",\n".intercalate lines ++ "\n\x7d"

end Json

end ShaderDag
