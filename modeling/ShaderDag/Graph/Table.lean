import ShaderDag.Graph.Workspace

/-!
# Tables

How the nodes of a pool are kept.  Names are stored once, in a table of their own, and a node refers to
its name by number.  Both tables go two ways: from a number to what is stored, and from what is stored to
its number.

* `Interner` — the names;
* `StoredNode` — a node that refers to its name by number, with `StoredNode.resolve?` and `Interner.store`;
* `NodeTable` — names and nodes, with `NodeTable.make`, `NodeTable.adopt`, `NodeTable.findAttribute?`;
* `NodeTable.view` — the pool that a table keeps;
* `Tables` — a row of tables.
-/

namespace ShaderDag

/-! ### Names -/

/-- Names, each under the number at which it was first stored. -/
structure Interner where
  ids : List (String × Nat)
  names : Array String
deriving DecidableEq, Repr

namespace Interner

/-- No names. -/
def empty : Interner := ⟨[], #[]⟩

/-- The number of a name that is stored. -/
def lookup? (names : Interner) (name : String) : Option Nat := names.ids.lookup name

/-- The name with a number. -/
def name? (names : Interner) (symbol : Nat) : Option String := names.names[symbol]?

/-- The number of a name, stored if it is new. -/
def intern (names : Interner) (name : String) : Nat × Interner :=
  match names.lookup? name with
  | some symbol => (symbol, names)
  | none => (names.names.size, ⟨(name, names.names.size) :: names.ids, names.names.push name⟩)

end Interner

/-! ### Stored nodes -/

/-- An operation whose children and whose name, if it has one, are numbers of a table. -/
inductive StoredNode where
  | operator (op : Operator) (lhs rhs : Nat)
  | call (function : Nat) (args : List Nat)
  | construct (args : List Nat)
  | varying (inner : Nat)
  | attribute (name : Nat)
  | uniform (name : Nat)
  | literal (value : Constant)
deriving DecidableEq, Repr

/-- The operation with its name in place of the name's number. -/
def StoredNode.resolve? (names : Interner) : StoredNode → Option (Node Nat)
  | .operator op lhs rhs => some (.operator op lhs rhs)
  | .call function args => do return .call (← Builtin.ofName? (← names.name? function)) args
  | .construct args => some (.construct args)
  | .varying inner => some (.varying inner)
  | .attribute name => (names.name? name).map .attribute
  | .uniform name => (names.name? name).map .uniform
  | .literal value => some (.literal value)

/-- The operation with its name replaced by the name's number; a new name is stored. -/
def Interner.store (names : Interner) : Node Nat → StoredNode × Interner
  | .operator op lhs rhs => (.operator op lhs rhs, names)
  | .call function args => (names.intern function.name).map (.call · args) id
  | .construct args => (.construct args, names)
  | .varying inner => (.varying inner, names)
  | .attribute name => (names.intern name).map .attribute id
  | .uniform name => (names.intern name).map .uniform id
  | .literal value => (.literal value, names)

/-- An entry of a table. -/
structure StoredEntry where
  kind : Kind
  node : StoredNode
  digest : Digest
deriving DecidableEq, Repr

namespace StoredEntry

/-- What an entry is found by. -/
def key (e : StoredEntry) : Kind × StoredNode := (e.kind, e.node)

/-- The entry with its name.  Every entry of a table has one that resolves. -/
def view (names : Interner) (e : StoredEntry) : Entry :=
  ⟨e.kind, (e.node.resolve? names).getD (.construct []), e.digest⟩

end StoredEntry

/-! ### Nodes -/

/-- The nodes of any number of expressions, without repetition, and their names. -/
structure NodeTable where
  names : Interner
  ids : List ((Kind × StoredNode) × Nat)
  entries : Array StoredEntry
deriving DecidableEq, Repr

namespace NodeTable

/-- The table without nodes. -/
def empty : NodeTable := ⟨.empty, [], #[]⟩

instance : Inhabited NodeTable := ⟨empty⟩

/-- The pool that a table keeps. -/
def view (t : NodeTable) : Pool := ⟨t.entries.map (·.view t.names)⟩

/-- The digest of a node. -/
def digest (t : NodeTable) (id : Nat) : Digest := (t.entries[id]?.map (·.digest)).getD ⟨0, 0⟩

/-- The digest of a stored node of a kind, over its name and not over the name's number. -/
def digestOf (t : NodeTable) (kind : Kind) (node : StoredNode) : Digest :=
  ((node.resolve? t.names).map fun n => Node.digest kind (n.map t.digest)).getD ⟨0, 0⟩

/-- The number of a stored node of a kind; the table grows by one entry if the node is new. -/
def intern (t : NodeTable) (kind : Kind) (node : StoredNode) : Nat × NodeTable :=
  match t.ids.lookup (kind, node) with
  | some id => (id, t)
  | none =>
    (t.entries.size, { t with
      ids := ((kind, node), t.entries.size) :: t.ids
      entries := t.entries.push ⟨kind, node, t.digestOf kind node⟩ })

/-- The number of a node of a kind.  Its name is stored first. -/
def make (t : NodeTable) (kind : Kind) (node : Node Nat) : Nat × NodeTable :=
  let (stored, names) := t.names.store node
  intern { t with names } kind stored

/-- The number of an input of a kind, if the table holds it. -/
def findInput? (t : NodeTable) (input : Nat → StoredNode) (name : String) (kind : Kind) : Option Nat := do
  t.ids.lookup (kind, input (← t.names.lookup? name))

/-- The number of an attribute, if the table holds it. -/
def findAttribute? (t : NodeTable) : String → Kind → Option Nat := t.findInput? .attribute

/-- The number of a uniform, if the table holds it. -/
def findUniform? (t : NodeTable) : String → Kind → Option Nat := t.findInput? .uniform

/-- The entry of a node of another table, with the children's new numbers.  The name is stored here too. -/
def adoptEntry (source : NodeTable) (state : List (Nat × Nat) × NodeTable) (id : Nat) :
    List (Nat × Nat) × NodeTable :=
  let (moved, t) := state
  match source.entries[id]? with
  | none => (moved, t)
  | some e =>
    let node := (e.view source.names).node.map fun c => (moved.lookup c).getD 0
    let (new, t) := t.make e.kind node
    ((id, new) :: moved, t)

/-- The number in this table of the node that `source` holds under `id`.  The distinct nodes below it are
added in the order in which a walk yields them. -/
def adopt (t : NodeTable) (source : NodeTable) (id : Nat) : Nat × NodeTable :=
  let (moved, t) := (source.view.reachable [id]).foldl (adoptEntry source) ([], t)
  ((moved.lookup id).getD 0, t)

end NodeTable

/-! ### Rows of tables -/

/-- A row of tables. -/
structure Tables where
  all : Array NodeTable
deriving DecidableEq, Repr

namespace Tables

/-- A row of empty tables. -/
def empty (count : Nat) : Tables := ⟨Array.replicate count .empty⟩

/-- The table with a number. -/
def table (s : Tables) (i : Nat) : NodeTable := s.all.getD i .empty

/-- The row with one table replaced. -/
def setTable (s : Tables) (i : Nat) (t : NodeTable) : Tables := ⟨s.all.setIfInBounds i t⟩

/-- The pools that a row of tables keeps. -/
def view (s : Tables) : Workspace := ⟨s.all.map (·.view)⟩

instance : NodeStore Tables where
  intern s pool kind node :=
    let (id, t) := (s.table pool).make kind node
    (id, s.setTable pool t)
  adopt s pool source id :=
    let (id, t) := (s.table pool).adopt (s.table source) id
    (id, s.setTable pool t)

end Tables

end ShaderDag
