import ShaderDag.Graph.Node

/-!
# Pools

A pool holds nodes, each under the number at which it was first added, and each once: adding a node
that is already there gives its old number.  Children are added before their parents, so they have
smaller numbers.

* `Pool` — the entries in order;
* `Pool.intern` — the number of a node, added if it is new;
* `Pool.node?` — a node with children known to be smaller, which is what recursion over a pool follows;
* `Pool.find?` — the number of a node that is already there.
-/

namespace ShaderDag

/-- A node of a pool with its kind and its digest; the children are numbers of earlier entries. -/
structure Entry where
  kind : Kind
  node : Node Nat
  digest : Digest
deriving DecidableEq, Repr

/-- The nodes of any number of expressions, without repetition. -/
structure Pool where
  entries : Array Entry
deriving DecidableEq, Repr

namespace Pool

/-- The pool without nodes. -/
def empty : Pool := ⟨#[]⟩

instance : Inhabited Pool := ⟨empty⟩

/-- The number of nodes. -/
def size (p : Pool) : Nat := p.entries.size

/-- The entry with a number. -/
def entry? (p : Pool) (id : Nat) : Option Entry := p.entries[id]?

/-- The kind of a node; a number that the pool does not hold counts as a scalar. -/
def kind (p : Pool) (id : Nat) : Kind := ((p.entry? id).map (·.kind)).getD .float

/-- The digest of a node. -/
def digest (p : Pool) (id : Nat) : Digest := ((p.entry? id).map (·.digest)).getD ⟨0, 0⟩

/-- The operation of a node, with children that are smaller than the node. -/
def node? (p : Pool) (id : Nat) : Option (Node (Fin id)) := (p.entry? id).bind (·.node.below? id)

/-- The children of a node, in evaluation order. -/
def children (p : Pool) (id : Nat) : List (Fin id) := ((p.node? id).map (·.children)).getD []

/-- Whether a node is an attribute, a uniform or a varying. -/
def isInput (p : Pool) (id : Nat) : Bool := (p.node? id).any (·.isInput)

/-- The number of a node of a kind, if the pool holds it. -/
def find? (p : Pool) (kind : Kind) (node : Node Nat) : Option Nat :=
  p.entries.findIdx? fun e => e.kind == kind && e.node == node

/-- The number of a node of a kind in the pool, which grows by one entry if the node is new. -/
def intern (p : Pool) (kind : Kind) (node : Node Nat) : Nat × Pool :=
  match p.find? kind node with
  | some id => (id, p)
  | none => (p.size, ⟨p.entries.push ⟨kind, node, Node.digest kind (node.map p.digest)⟩⟩)

end Pool

end ShaderDag
