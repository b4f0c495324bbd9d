import ShaderDag.Failure
import ShaderDag.Graph.Workspace

/-!
# Building expressions

The checked constructions: each looks up the kinds of its operands in the signature tables, adopts
operands from other pools, and adds one node.  A construction that is refused adds nothing.

* `BuildOn` — actions on a row of pools that may fail; a failure keeps what was added before it;
* `Build` — such actions on a workspace;
* `Build.addAttribute`, `Build.addUniform`, `Build.addConstant` — inputs and constants;
* `Build.binary`, `Build.varying`, `Build.construct`, `Build.call` — operations;
* `Build.expectKind` — a check of a handle's kind.
-/

namespace ShaderDag

/-- Actions on a row of pools.  A failing action leaves the pools as far as it had come. -/
abbrev BuildOn (σ : Type) := EStateM Failure σ

/-- Actions on a workspace. -/
abbrev Build := BuildOn Workspace

namespace Build

variable {σ : Type}

/-- Refuses an operation. -/
def fail {α : Type} (cause : Cause) : BuildOn σ α := throw (Failure.ofCause cause)

variable [NodeStore σ]

/-- Adds a node to a pool. -/
def intern (pool : Nat) (kind : Kind) (node : Node Nat) : BuildOn σ Handle := do
  let id ← modifyGet fun s => NodeStore.intern s pool kind node
  return ⟨pool, id, kind⟩

/-- The number of a handle's node in a pool, adopted there if it lives elsewhere. -/
def adopt (pool : Nat) (h : Handle) : BuildOn σ Nat := do
  if h.pool = pool then return h.id
  else modifyGet fun s => NodeStore.adopt s pool h.pool h.id

/-- A per-vertex input. -/
def addAttribute (pool : Nat) (name : String) (kind : Kind) : BuildOn σ Handle :=
  if kind.canBeAttribute then intern pool kind (.attribute name)
  else fail (.attributeKind name kind)

/-- A per-draw input. -/
def addUniform (pool : Nat) (name : String) (kind : Kind) : BuildOn σ Handle :=
  intern pool kind (.uniform name)

/-- A constant. -/
def addConstant (pool : Nat) (value : Constant) : BuildOn σ Handle :=
  intern pool .float (.literal value)

/-- An infix operation in the pool of its left operand. -/
def binary (op : Operator) (lhs rhs : Handle) : BuildOn σ Handle :=
  match op.result? lhs.kind rhs.kind with
  | some kind => do
    let right ← adopt lhs.pool rhs
    intern lhs.pool kind (.operator op lhs.id right)
  | none => fail (.undefinedOperator op lhs.kind rhs.kind)

/-- A value interpolated from the vertex stage to the fragment stage. -/
def varying (inner : Handle) : BuildOn σ Handle :=
  if inner.kind.canInterpolate then intern inner.pool inner.kind (.varying inner.id)
  else fail (.notInterpolable inner.kind)

/-- The constructor of a kind, applied in a pool. -/
def construct (pool : Nat) (kind : Kind) (args : List Handle) : BuildOn σ Handle :=
  let kinds := args.map (·.kind)
  if kind.canConstruct kinds then do
    let ids ← args.mapM (adopt pool)
    intern pool kind (.construct ids)
  else fail (.noConstructor kind kinds)

/-- A function, by name, applied in a pool. -/
def call (pool : Nat) (name : String) (args : List Handle) : BuildOn σ Handle :=
  match Builtin.ofName? name with
  | none => fail (.unknownFunction name)
  | some function =>
    let kinds := args.map (·.kind)
    match function.result? kinds with
    | some kind => do
      let ids ← args.mapM (adopt pool)
      intern pool kind (.call function ids)
    | none => fail (.noOverload function kinds)

/-- Accepts a handle of a given kind. -/
def expectKind (kind : Kind) (h : Handle) : Except Failure Handle :=
  if h.kind = kind then .ok h else .error (Failure.ofCause (.wrongKind kind h.kind))

end Build

end ShaderDag
