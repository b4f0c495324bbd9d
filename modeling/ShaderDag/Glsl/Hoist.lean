import ShaderDag.Glsl.Stage
import ShaderDag.Graph.Occurrence

/-!
# Hoisting

A value that occurs more than once is computed once, into a local that is named after its kind.

* `Naming` — actions on a binder that may fail; a failure keeps the names given before it;
* `Naming.reserve`, `Naming.bind` — taking a name, without and with a node, one change after the other;
* `Naming.hoist` — the definitions of all locals that some roots need, in an order in which each uses
  only earlier ones.
-/

namespace ShaderDag

/-- Actions on a binder. -/
abbrev Naming := EStateM Failure Binder

namespace Naming

/-- Accepts the names that may be declared. -/
def accept (name : String) : Naming Unit :=
  match checkIdentifier name with
  | .ok () => pure ()
  | .error f => throw f

/-- Puts a name in use, and says whether it was free. -/
def take (name : String) : Naming Bool := modifyGet fun b =>
  if b.isUsed name then (false, b) else (true, { b with used := name :: b.used })

/-- Takes a name that is not in use. -/
def reserve (name : String) : Naming Unit := do
  accept name
  if ← take name then return () else throw (Failure.ofCause (.nameInUse name))

/-- Gives a node without a name a name that is not in use. -/
def bind (id : Nat) (name : String) : Naming Unit := do
  accept name
  match (← get).nameOf? id with
  | some existing => throw (Failure.ofCause (.alreadyBound id existing))
  | none =>
    reserve name
    modify fun b => { b with bound := (id, name) :: b.bound }

/-- A free name made from a base. -/
def uniqueName (base : String) : Naming String := modifyGet fun b => b.uniqueName base

/-- The term of a node under the names given so far. -/
def term (p : Pool) (id : Nat) : Naming Term := do
  match p.term (← get) id with
  | .ok t => return t
  | .error f => throw f

/-- The definition of a local for one node, which is bound to the local from then on. -/
def define (p : Pool) (id : Nat) : Naming Statement := do
  let kind := p.kind id
  let name ← uniqueName kind.name
  let value ← term p id
  bind id name
  return .define kind name value

/-- The definitions of locals for all unbound nodes that occur more than once below the roots. -/
def hoist (p : Pool) (roots : List Nat) : Naming (List Statement) := do
  let names ← get
  let occurrences := Occurrences.ofRoots p (fun id => !names.isBound id) roots
  occurrences.shared.mapM (define p)

end Naming

end ShaderDag
