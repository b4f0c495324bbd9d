import ShaderDag.Json.Number

/-!
# Tokens of JSON text

* `Json.Token` — punctuation, words, numbers and texts, and the point where the text stops being JSON;
* `Json.scanText?` — the body of a quoted text;
* `Json.tokenize` — the tokens of a text up to the first broken one.
-/

namespace ShaderDag

namespace Json

/-- A token of JSON text.  `broken` stands for the rest of the text from its first lexical fault on. -/
inductive Token where
  | openBrace
  | closeBrace
  | openBracket
  | closeBracket
  | colon
  | comma
  | null
  | boolean (value : Bool)
  | number (value : Numeral)
  | text (value : String)
  | broken
deriving DecidableEq, Repr

/-! ### Quoted texts -/

/-- The value of a hexadecimal digit, in either case. -/
def hexDigit? (c : Char) : Option Nat :=
  if '0' ≤ c ∧ c ≤ '9' then some (c.toNat - '0'.toNat)
  else if 'a' ≤ c ∧ c ≤ 'f' then some (c.toNat - 'a'.toNat + 10)
  else if 'A' ≤ c ∧ c ≤ 'F' then some (c.toNat - 'A'.toNat + 10)
  else none

/-- The number that four hexadecimal digits spell. -/
def hexUnit? (a b c d : Char) : Option Nat := do
  return 4096 * (← hexDigit? a) + 256 * (← hexDigit? b) + 16 * (← hexDigit? c) + (← hexDigit? d)

/-- The character of an escape of two characters. -/
def simpleEscape? : Char → Option Char
  | '"' => some '"'
  | '\\' => some '\\'
  | '/' => some '/'
  | 'b' => some '\x08'
  | 'f' => some '\x0c'
  | 'n' => some '\n'
  | 'r' => some '\r'
  | 't' => some '\t'
  | _ => none

/-- Whether a code unit is the first half of a pair. -/
def isHighSurrogate (unit : Nat) : Bool := 0xd800 ≤ unit && unit < 0xdc00

/-- Whether a code unit is the second half of a pair. -/
def isLowSurrogate (unit : Nat) : Bool := 0xdc00 ≤ unit && unit < 0xe000

/-- The characters of a quoted text up to its closing quote, and the text behind the quote.  Control
characters, unknown escapes and halves of surrogate pairs on their own are faults. -/
def scanText? : List Char → Option (List Char × List Char)
  | [] => none
  | '"' :: rest => some ([], rest)
  | '\\' :: 'u' :: a :: b :: c :: d :: rest => do
    let unit ← hexUnit? a b c d
    if isLowSurrogate unit then none
    else if isHighSurrogate unit then
      match rest with
      | '\\' :: 'u' :: e :: f :: g :: h :: rest => do
        let low ← hexUnit? e f g h
        if isLowSurrogate low then
          let (cs, rest) ← scanText? rest
          return (Char.ofNat (0x10000 + 0x400 * (unit - 0xd800) + (low - 0xdc00)) :: cs, rest)
        else none
      | _ => none
    else
      let (cs, rest) ← scanText? rest
      return (Char.ofNat unit :: cs, rest)
  | '\\' :: escape :: rest => do
    let c ← simpleEscape? escape
    let (cs, rest) ← scanText? rest
    return (c :: cs, rest)
  | c :: rest =>
    if c.toNat < 0x20 then none
    else do
      let (cs, rest) ← scanText? rest
      return (c :: cs, rest)

/-! ### Token lists -/

/-- Blanks between tokens. -/
def isJsonBlank (c : Char) : Bool := c == ' ' || c == '\n' || c == '\t' || c == '\r'

/-- The token at the start of a text and the remaining text. -/
def scanToken? : List Char → Option (Token × List Char)
  | '\x7b' :: rest => some (.openBrace, rest)
  | '\x7d' :: rest => some (.closeBrace, rest)
  | '[' :: rest => some (.openBracket, rest)
  | ']' :: rest => some (.closeBracket, rest)
  | ':' :: rest => some (.colon, rest)
  | ',' :: rest => some (.comma, rest)
  | 'n' :: 'u' :: 'l' :: 'l' :: rest => some (.null, rest)
  | 't' :: 'r' :: 'u' :: 'e' :: rest => some (.boolean true, rest)
  | 'f' :: 'a' :: 'l' :: 's' :: 'e' :: rest => some (.boolean false, rest)
  | '"' :: rest => (scanText? rest).map fun (cs, rest) => (.text (String.ofList cs), rest)
  | cs => (scanNumber? cs).map fun (n, rest) => (.number n, rest)

/-- The tokens of a text, at most `count` of them. -/
def tokens : (count : Nat) → List Char → List Token
  | 0, _ => []
  | count + 1, cs =>
    match cs.dropWhile isJsonBlank with
    | [] => []
    | c :: rest =>
      match scanToken? (c :: rest) with
      | some (token, rest) => token :: tokens count rest
      | none => [.broken]

/-- The tokens of a text.  Every token takes at least one character. -/
def tokenize (cs : List Char) : List Token := tokens cs.length cs

end Json

end ShaderDag
