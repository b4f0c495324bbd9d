import ShaderDag.Signature
import ShaderDag.Number.Constant
import ShaderDag.Digest.Xxh3

/-!
# Nodes

A node is one operation of an expression.  The type is generic in what stands for a child: an index
into a pool, an index below a bound, a digest.

* `Node` — the seven operations;
* `Node.children`, `Node.map`, `Node.mapM` — the children, in evaluation order;
* `Node.isInput` — attributes, uniforms and varyings, which generated source refers to by name;
* `Node.digest` — the digest of a node with children that are digests.
-/

namespace ShaderDag

/-- An operation whose children are of type `α`.  The arguments of `construct` belong to the constructor
of the node's own kind. -/
inductive Node (α : Type) where
  | operator (op : Operator) (lhs rhs : α)
  | call (function : Builtin) (args : List α)
  | construct (args : List α)
  | varying (inner : α)
  | attribute (name : String)
  | uniform (name : String)
  | literal (value : Constant)
deriving DecidableEq, Repr

namespace Node

variable {α β : Type}

/-- The children in evaluation order. -/
def children : Node α → List α
  | .operator _ lhs rhs => [lhs, rhs]
  | .call _ args => args
  | .construct args => args
  | .varying inner => [inner]
  | .attribute _ | .uniform _ | .literal _ => []

/-- The node with every child replaced. -/
def map (f : α → β) : Node α → Node β
  | .operator op lhs rhs => .operator op (f lhs) (f rhs)
  | .call function args => .call function (args.map f)
  | .construct args => .construct (args.map f)
  | .varying inner => .varying (f inner)
  | .attribute name => .attribute name
  | .uniform name => .uniform name
  | .literal value => .literal value

/-- The node with every child replaced by the result of an action, run in evaluation order. -/
def mapM {m : Type → Type} [Monad m] (f : α → m β) : Node α → m (Node β)
  | .operator op lhs rhs => do return .operator op (← f lhs) (← f rhs)
  | .call function args => do return .call function (← args.mapM f)
  | .construct args => do return .construct (← args.mapM f)
  | .varying inner => do return .varying (← f inner)
  | .attribute name => pure (.attribute name)
  | .uniform name => pure (.uniform name)
  | .literal value => pure (.literal value)

/-- Attributes, uniforms and varyings, which have a name before any source is generated. -/
def isInput : Node α → Bool
  | .varying _ | .attribute _ | .uniform _ => true
  | .operator .. | .call .. | .construct .. | .literal _ => false

/-- The node with children below a bound, if they are. -/
def below? (bound : Nat) (node : Node Nat) : Option (Node (Fin bound)) :=
  node.mapM fun c => if h : c < bound then some ⟨c, h⟩ else none

@[simp] theorem children_map (f : α → β) (n : Node α) : (n.map f).children = n.children.map f := by
  cases n <;> rfl

theorem mem_children_map {f : α → β} {n : Node α} {b : β} :
    b ∈ (n.map f).children ↔ ∃ a ∈ n.children, f a = b := by
  rw [children_map, List.mem_map]

/-- Of two nodes with the same image, each child of one has a partner among the children of the other. -/
theorem exists_partner {γ : Type} {f : α → γ} {g : β → γ} {n : Node α} {m : Node β} (same : n.map f = m.map g)
    {a : α} (ha : a ∈ n.children) : ∃ b ∈ m.children, g b = f a := by
  refine mem_children_map.1 ?_
  rw [← same]
  exact mem_children_map.2 ⟨a, ha, rfl⟩

@[simp] theorem map_map {γ : Type} (f : α → β) (g : β → γ) (n : Node α) :
    (n.map f).map g = n.map (g ∘ f) := by
  cases n <;> simp [map]

@[simp] theorem map_id' (n : Node α) : n.map id = n := by
  cases n <;> simp [map]

@[simp] theorem isInput_map (f : α → β) (n : Node α) : (n.map f).isInput = n.isInput := by
  cases n <;> rfl

/-- Two nodes with the same image are inputs both or neither. -/
theorem isInput_congr {γ : Type} {f : α → γ} {g : β → γ} {n : Node α} {m : Node β}
    (same : n.map f = m.map g) :
    n.isInput = m.isInput := by
  rw [← isInput_map f, same, isInput_map]

/-! ### Digests -/

/-- The number of the operation in digests. -/
def tag : Node α → UInt8
  | .operator .. => 0
  | .call .. => 1
  | .construct .. => 2
  | .varying .. => 3
  | .attribute .. => 4
  | .uniform .. => 5
  | .literal .. => 6

/-- What a digest holds of an operation besides its number and its children. -/
def payload : Node α → List UInt8
  | .operator op _ _ => [op.tag]
  | .call function _ => countedText function.name
  | .construct _ | .varying _ => []
  | .attribute name | .uniform name => countedText name
  | .literal value => littleEndian 4 value.bits.toNat

/-- The bytes that stand for a node of a kind: operation, kind, payload, the number of children and
their digests. -/
def record (kind : Kind) (node : Node Digest) : List UInt8 :=
  node.tag :: kind.tag :: (node.payload ++ littleEndian 4 node.children.length ++
    node.children.flatMap Digest.bytes)

/-- The digest of a node of a kind. -/
def digest (kind : Kind) (node : Node Digest) : Digest := digestOf (record kind node)

end Node

end ShaderDag
