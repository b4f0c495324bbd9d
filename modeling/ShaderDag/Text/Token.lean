import ShaderDag.Number.Constant

/-!
# Tokens of expression text

* `Lexeme` — what a token is, with `Lexeme.description` as messages name it;
* `Token` — a lexeme with the byte offset at which it starts;
* `SyntaxError` — a located problem, with its wording.
-/

namespace ShaderDag

/-- The lexical elements of expression text; `endOfInput` closes every token list. -/
inductive Lexeme where
  | name (text : String)
  | numeral (value : Numeral)
  | openParen
  | closeParen
  | comma
  | plus
  | minus
  | star
  | endOfInput
deriving DecidableEq, Repr, Inhabited

/-- A lexeme and the byte offset of its first character. -/
structure Token where
  lexeme : Lexeme
  offset : Nat
deriving DecidableEq, Repr, Inhabited

/-- How messages name a lexeme. -/
def Lexeme.description : Lexeme → String
  | name text => "identifier '" ++ text ++ "'"
  | numeral value => "number " ++ value.text
  | openParen => "'('"
  | closeParen => "')'"
  | comma => "','"
  | plus => "'+'"
  | minus => "'-'"
  | star => "'*'"
  | endOfInput => "end of input"

/-- What is wrong with a piece of expression text. -/
inductive SyntaxProblem where
  | emptyExponent
  | strayCharacter (c : Char)
  | unexpected (found : Lexeme)
  | expected (wanted found : Lexeme)
deriving DecidableEq, Repr

/-- The wording of a problem. -/
def SyntaxProblem.text : SyntaxProblem → String
  | emptyExponent => "invalid number exponent (expected digits)"
  | strayCharacter c => "unexpected character '" ++ c.toString ++ "'"
  | unexpected found => "unexpected " ++ found.description
  | expected wanted found =>
    "expected " ++ wanted.description ++ ", found " ++ found.description

/-- A problem and the byte offset at which it was met. -/
structure SyntaxError where
  offset : Nat
  problem : SyntaxProblem
deriving DecidableEq, Repr

/-- The wording of a syntax error, with its place. -/
def SyntaxError.text (e : SyntaxError) : String :=
  "at byte " ++ toString e.offset ++ ": " ++ e.problem.text

end ShaderDag
