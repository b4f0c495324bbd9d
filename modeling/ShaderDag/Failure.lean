import ShaderDag.Signature
import ShaderDag.Text.Token
import ShaderDag.Document.Problem

/-!
# Failures

Every operation that can refuse its input says why with a `Failure`: a cause, the byte offset in
expression text that raised it, and the item of a document that the text belongs to.

* `Cause` — the reasons, each a constructor of its own;
* `Cause.family` — the seven families that callers tell apart;
* `Failure.message` — the wording.
-/

namespace ShaderDag

/-- The families of failures. -/
inductive Family where
  | typeMismatch
  | nameConflict
  | unboundReference
  | stageViolation
  | syntaxError
  | validation
  | other
deriving DecidableEq, Repr

/-- The two outputs of a program. -/
inductive Output where
  | position
  | colour
deriving DecidableEq, Repr

/-- A node that has to be written and has no name. -/
inductive Unbound where
  | attribute (name : String)
  | uniform (name : String)
  | varying (kind : Kind) (id : Nat)
  | node (id : Nat)
deriving DecidableEq, Repr

/-- Why an operation was refused. -/
inductive Cause where
  | undefinedOperator (op : Operator) (lhs rhs : Kind)
  | undefinedNegation (operand : Kind)
  | notInterpolable (kind : Kind)
  | varyingArity (count : Nat)
  | attributeKind (name : String) (kind : Kind)
  | noConstructor (target : Kind) (args : List Kind)
  | noOverload (function : Builtin) (args : List Kind)
  | wrongKind (expected found : Kind)
  | outputKind (output : Output) (found : Kind)
  | nameInUse (name : String)
  | alreadyBound (id : Nat) (name : String)
  | unbound (what : Unbound)
  | varyingInVertex (name : String)
  | attributeInFragment (name : String)
  | malformedText (error : SyntaxError)
  | unknownFunction (name : String)
  | unknownIdentifier (name : String)
  | alreadyDefined (name : String)
  | notIdentifier (name : String)
  | builtinName (name lead : String)
  | unreadableDocument (problem : ReadProblem)
  | unreadableFile (reason : String)
  | cannotOpen (path : String)
deriving DecidableEq, Repr

/-- The item of a document whose text or declaration raised a failure. -/
inductive Item where
  | attribute (name : String)
  | definition (name : String)
  | output (output : Output)
deriving DecidableEq, Repr

/-- A cause with its place. -/
structure Failure where
  cause : Cause
  offset : Option Nat
  item : Option Item
deriving DecidableEq, Repr

/-- The family of a cause. -/
def Cause.family : Cause → Family
  | undefinedOperator .. | undefinedNegation .. | notInterpolable .. | varyingArity ..
  | attributeKind .. | noConstructor .. | noOverload .. | wrongKind .. | outputKind .. => .typeMismatch
  | nameInUse .. | alreadyBound .. => .nameConflict
  | unbound .. => .unboundReference
  | varyingInVertex .. | attributeInFragment .. => .stageViolation
  | malformedText .. => .syntaxError
  | unknownFunction .. | unknownIdentifier .. | alreadyDefined .. | notIdentifier .. | builtinName ..
  | unreadableDocument .. | unreadableFile .. => .validation
  | cannotOpen .. => .other

/-- The words in front of every message of a family. -/
def Family.lead : Family → String
  | typeMismatch => "type mismatch: "
  | nameConflict => "name conflict: "
  | unboundReference => "unbound named reference: "
  | stageViolation => "stage violation: "
  | syntaxError => "syntax error: "
  | validation => "validation error: "
  | other => ""

/-- How messages name an unbound node. -/
def Unbound.description : Unbound → String
  | .attribute name => "attribute '" ++ name ++ "'"
  | .uniform name => "uniform '" ++ name ++ "'"
  | .varying kind id => kind.name ++ " varying (node " ++ toString id ++ ")"
  | .node id => "node " ++ toString id

/-- A constructor or function applied to arguments of some kinds. -/
def applicationText (head : String) (args : List Kind) : String :=
  head ++ "(" ++ Kind.listText args ++ ")"

/-- The wording of a cause, without its place. -/
def Cause.text : Cause → String
  | undefinedOperator op lhs rhs =>
    lhs.name ++ " " ++ op.symbol ++ " " ++ rhs.name ++ " is not defined"
  | undefinedNegation operand => "unary minus is not defined for " ++ operand.name
  | notInterpolable kind => kind.name ++ " cannot be a varying"
  | varyingArity count => "varying() takes 1 argument, got " ++ toString count
  | attributeKind name kind => "attribute '" ++ name ++ "' cannot have kind " ++ kind.name
  | noConstructor target args =>
    "no constructor " ++ applicationText target.name args ++ "; accepted: [" ++
      "; ".intercalate (target.constructorForms.map (applicationText target.name)) ++ "]"
  | noOverload function args => "no overload " ++ applicationText function.name args
  | wrongKind expected found => "expected " ++ expected.name ++ ", found " ++ found.name
  | outputKind .position found => "vertex position must be vec4, found " ++ found.name
  | outputKind .colour found => "fragment colour must be vec4, found " ++ found.name
  | nameInUse name => "'" ++ name ++ "' is already in use"
  | alreadyBound id name => "node " ++ toString id ++ " is already bound to '" ++ name ++ "'"
  | unbound what => what.description
  | varyingInVertex name => "varying '" ++ name ++ "' is read by the vertex stage"
  | attributeInFragment name =>
    "attribute '" ++ name ++ "' is read by the fragment stage; pass it through varying()"
  | malformedText error => error.text
  | unknownFunction name => "unknown function '" ++ name ++ "'"
  | unknownIdentifier name => "unknown identifier '" ++ name ++ "'"
  | alreadyDefined name => "'" ++ name ++ "' is already defined"
  | notIdentifier name => "'" ++ name ++ "' is not a valid identifier"
  | builtinName name lead => "'" ++ name ++ "' uses the reserved prefix '" ++ lead ++ "'"
  | unreadableDocument problem => "parse program JSON: " ++ problem.text
  | unreadableFile reason => "parse program JSON: " ++ reason
  | cannotOpen path => "open program JSON '" ++ path ++ "'"

/-- How messages name an item of a document. -/
def Item.description : Item → String
  | .attribute name => "attribute '" ++ name ++ "'"
  | .definition name => "def '" ++ name ++ "'"
  | .output .position => "output 'vertex_position'"
  | .output .colour => "output 'fragment_colour'"

namespace Failure

/-- A failure without a place. -/
def ofCause (cause : Cause) : Failure := ⟨cause, none, none⟩

/-- The failure of a node that has no name and needs one. -/
def unbound (what : Unbound) : Failure := ofCause (.unbound what)

/-- The failure with the offset of the operator, call or name that raised it. -/
def locate (offset : Nat) (f : Failure) : Failure := { f with offset := some offset }

/-- The failure with the item of the document that it belongs to. -/
def within (item : Item) (f : Failure) : Failure := { f with item := some item }

/-- The family of a failure. -/
def family (f : Failure) : Family := f.cause.family

/-- The wording of a failure: its family, the item, the cause and the offset. -/
def message (f : Failure) : String :=
  f.family.lead ++
    (match f.item with
      | some item => item.description ++ ": "
      | none => "") ++
    f.cause.text ++
    (match f.offset with
      | some offset => " at byte " ++ toString offset
      | none => "")

end Failure

end ShaderDag
