import ShaderDag.Signature
import ShaderDag.Text.Lexer

/-!
# From tokens to expressions

A sum is a row of products joined by `+` and `-`, a product a row of operands joined by `*`, and an
operand a number, a name, a call, a sum in parentheses or a negated operand.  Rows group to the left.

The tokens stand in an array and are read by recursive descent: one function for each kind of part, and a
position that they share.  Every look at a token checks the position.  The functions go through as many
nested calls as they have fuel; a run that needs more, or that looks behind the last token, ends with a
fault of its own.

* `Expression` — an expression as it is written, before its names and kinds are known;
* `Descent` — reading at a position, with `Descent.peek`, `Descent.bump`, `Descent.expect` and
  `Descent.consume`;
* `Descent.term`, …, `Descent.primary` — the parts of an expression;
* `parse` — the expression of a whole text.
-/

namespace ShaderDag

/-- An expression as written: parentheses are gone, offsets are those of the name, of the called name
or of the operator, at which a message will point. -/
inductive Expression where
  | numeral (value : Numeral)
  | name (text : String) (offset : Nat)
  | negate (operand : Expression) (offset : Nat)
  | binary (op : Operator) (left right : Expression) (offset : Nat)
  | call (callee : String) (args : List Expression) (offset : Nat)
deriving Repr, Inhabited

/-- Why a run over the tokens ends without an expression. -/
inductive Stop where
  /-- A token cannot stand where it does. -/
  | refused (error : SyntaxError)
  /-- The position is not that of a token. -/
  | outOfRange
  /-- More nested calls are needed. -/
  | unfinished
deriving DecidableEq, Repr

/-- Reading tokens from a position on. -/
abbrev Descent := EStateM Stop Nat

namespace Descent

variable (tokens : Array Token)

/-! ### Single tokens -/

/-- The token at the position. -/
def peek : Descent Token := do
  match tokens[← get]? with
  | some t => return t
  | none => throw .outOfRange

/-- The token at the position, which moves on.  The last token is never passed. -/
def bump : Descent Token := do
  let t ← peek tokens
  let pos ← get
  if pos + 1 < tokens.size then set (pos + 1)
  return t

/-- Passes a token that has to come next. -/
def expect (wanted : Lexeme) : Descent Unit := do
  let t ← peek tokens
  if t.lexeme = wanted then
    let _ ← bump tokens
  else throw (.refused ⟨t.offset, .expected wanted t.lexeme⟩)

/-- Passes a token if it comes next, and tells its offset. -/
def consume (wanted : Lexeme) : Descent (Option Nat) := do
  let t ← peek tokens
  if t.lexeme = wanted then return some (← bump tokens).offset
  else return none

/-! ### Parts of an expression -/

mutual

/-- A sum. -/
def term : (fuel : Nat) → Descent Expression
  | 0 => throw .unfinished
  | fuel + 1 => do
    let first ← factor fuel
    moreTerms fuel first

/-- A sum that goes on behind its first products. -/
def moreTerms : (fuel : Nat) → Expression → Descent Expression
  | 0, _ => throw .unfinished
  | fuel + 1, left => do
    match ← consume tokens .plus with
    | some offset => do
      let right ← factor fuel
      moreTerms fuel (.binary .add left right offset)
    | none =>
      match ← consume tokens .minus with
      | some offset => do
        let right ← factor fuel
        moreTerms fuel (.binary .sub left right offset)
      | none => return left

/-- A product. -/
def factor : (fuel : Nat) → Descent Expression
  | 0 => throw .unfinished
  | fuel + 1 => do
    let first ← unary fuel
    moreFactors fuel first

/-- A product that goes on behind its first operands. -/
def moreFactors : (fuel : Nat) → Expression → Descent Expression
  | 0, _ => throw .unfinished
  | fuel + 1, left => do
    match ← consume tokens .star with
    | some offset => do
      let right ← unary fuel
      moreFactors fuel (.binary .mul left right offset)
    | none => return left

/-- An operand, with the minus signs in front of it. -/
def unary : (fuel : Nat) → Descent Expression
  | 0 => throw .unfinished
  | fuel + 1 => do
    match ← consume tokens .minus with
    | some offset => do
      let operand ← unary fuel
      return .negate operand offset
    | none => primary fuel

/-- A number, a name, a call or a sum in parentheses. -/
def primary : (fuel : Nat) → Descent Expression
  | 0 => throw .unfinished
  | fuel + 1 => do
    let t ← bump tokens
    match t.lexeme with
    | .numeral value => return .numeral value
    | .name text =>
      match ← consume tokens .openParen with
      | some _ => do
        let args ← arguments fuel
        return .call text args t.offset
      | none => return .name text t.offset
    | .openParen => do
      let inner ← term fuel
      expect tokens .closeParen
      return inner
    | found => throw (.refused ⟨t.offset, .unexpected found⟩)

/-- The arguments of a call, behind its opening parenthesis. -/
def arguments : (fuel : Nat) → Descent (List Expression)
  | 0 => throw .unfinished
  | fuel + 1 => do
    match ← consume tokens .closeParen with
    | some _ => return []
    | none => moreArguments fuel []

/-- The arguments of a call from one on that has to be there, behind earlier ones. -/
def moreArguments : (fuel : Nat) → List Expression → Descent (List Expression)
  | 0, _ => throw .unfinished
  | fuel + 1, earlier => do
    let e ← term fuel
    match ← consume tokens .comma with
    | some _ => moreArguments fuel (earlier ++ [e])
    | none => do
      expect tokens .closeParen
      return earlier ++ [e]

end

/-- A sum and the end of the input behind it. -/
def whole (fuel : Nat) : Descent Expression := do
  let e ← term tokens fuel
  expect tokens .endOfInput
  return e

end Descent

/-- The expression of a token list that is closed by the end of the input.  Four calls for each token are
enough, so on such a list neither fault occurs. -/
def parseTokens (ts : List Token) : Except SyntaxError Expression :=
  match Descent.whole ts.toArray (4 * ts.length) 0 with
  | .ok e _ => .ok e
  | .error (.refused f) _ => .error f
  | .error _ _ => .error ⟨0, .unexpected .endOfInput⟩

/-- The expression that a text spells. -/
def parse (source : String) : Except SyntaxError Expression := do
  parseTokens (← tokenize source)

end ShaderDag
