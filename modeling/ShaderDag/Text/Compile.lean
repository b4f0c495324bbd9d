import ShaderDag.Graph.Build
import ShaderDag.Text.Parser

/-!
# From expressions to nodes

A parsed expression is built bottom up, from left to right.  A call whose name is a kind is that kind's
constructor, `varying` marks an interpolated value, and all other calls are functions.  A minus sign
directly on a number belongs to the number; any other negation multiplies by `-1`.

* `Scope` — the names that expression text may use, each defined once;
* `Build.lower` — the node of a parsed expression;
* `Build.compile` — the node of expression text.
-/

namespace ShaderDag

/-! ### Scopes -/

/-- Defined names with what they stand for. -/
structure Scope where
  names : List (String × Handle)
deriving DecidableEq, Repr, Inhabited

namespace Scope

/-- The scope without names. -/
def empty : Scope := ⟨[]⟩

/-- What a name stands for. -/
def get? (s : Scope) (name : String) : Option Handle := s.names.lookup name

/-- The number of names. -/
def size (s : Scope) : Nat := s.names.length

/-- The scope with one more name, which must be new. -/
def define (s : Scope) (name : String) (h : Handle) : Except Failure Scope :=
  if (s.get? name).isSome then .error (Failure.ofCause (.alreadyDefined name))
  else .ok ⟨(name, h) :: s.names⟩

end Scope

/-! ### Lowering -/

namespace Build

variable {σ : Type}

/-- Points the failure of a construction at a byte of the text. -/
def locatedAt {α : Type} (offset : Nat) (action : BuildOn σ α) : BuildOn σ α :=
  EStateM.adaptExcept (Failure.locate offset) action

/-- Lifts a result that does not touch the pools. -/
def ofExcept {α : Type} : Except Failure α → BuildOn σ α
  | .ok a => pure a
  | .error f => throw f

variable [NodeStore σ]

/-- The negation of a value. -/
def negate (pool : Nat) (operand : Handle) : BuildOn σ Handle :=
  if (Operator.mul.result? operand.kind .float).isNone then fail (.undefinedNegation operand.kind)
  else do binary .mul operand (← addConstant pool .minusOne)

/-- A call: an interpolated value, a constructor or a function. -/
def apply (pool : Nat) (callee : String) (args : List Handle) : BuildOn σ Handle :=
  if callee = "varying" then
    match args with
    | [inner] => varying inner
    | _ => fail (.varyingArity args.length)
  else
    match Kind.ofName? callee with
    | some kind => construct pool kind args
    | none => call pool callee args

mutual

/-- The node of a parsed expression. -/
def lower (pool : Nat) (scope : Scope) : Expression → BuildOn σ Handle
  | .numeral value => addConstant pool (value.constant false)
  | .name text offset =>
    match scope.get? text with
    | some h => do
      let id ← adopt pool h
      return ⟨pool, id, h.kind⟩
    | none => locatedAt offset (fail (.unknownIdentifier text))
  | .negate (.numeral value) _ => addConstant pool (value.constant true)
  | .negate operand offset => do
    let h ← lower pool scope operand
    locatedAt offset (negate pool h)
  | .binary op left right offset => do
    let l ← lower pool scope left
    let r ← lower pool scope right
    locatedAt offset (binary op l r)
  | .call callee args offset => do
    let hs ← lowerAll pool scope args
    locatedAt offset (apply pool callee hs)

/-- The nodes of parsed expressions, from left to right. -/
def lowerAll (pool : Nat) (scope : Scope) : List Expression → BuildOn σ (List Handle)
  | [] => pure []
  | e :: es => do
    let h ← lower pool scope e
    let hs ← lowerAll pool scope es
    return h :: hs

end

/-- The node of expression text. -/
def compile (pool : Nat) (source : String) (scope : Scope) : BuildOn σ Handle :=
  match parse source with
  | .ok e => lower pool scope e
  | .error e => fail (.malformedText e)

end Build

end ShaderDag
