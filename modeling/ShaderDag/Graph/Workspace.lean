import ShaderDag.Graph.Walk

/-!
# Workspaces

Expressions may be built in several pools at once.  A handle names a node in one of them; a node that is
used in another pool is first adopted there, together with everything below it.

* `Handle` — a node of one of the pools, with its kind;
* `NodeStore` — what the constructions ask of a row of pools;
* `Workspace` — the pools;
* `Pool.adopt` — the number of another pool's node in this one, added if needed;
* `Workspace.sameStructure` — equality of what two handles stand for.
-/

namespace ShaderDag

namespace Pool

/-- The entry of a node of another pool, with the children's new numbers. -/
def adoptEntry (source : Pool) (state : List (Nat × Nat) × Pool) (id : Nat) : List (Nat × Nat) × Pool :=
  let (moved, p) := state
  match source.entry? id with
  | none => (moved, p)
  | some e =>
    let (new, p) := p.intern e.kind (e.node.map fun c => (moved.lookup c).getD 0)
    ((id, new) :: moved, p)

/-- The number in this pool of the node that `source` holds under `id`.  The distinct nodes below it are
added in the order in which a walk yields them. -/
def adopt (p : Pool) (source : Pool) (id : Nat) : Nat × Pool :=
  let (moved, p) := (source.reachable [id]).foldl (adoptEntry source) ([], p)
  ((moved.lookup id).getD 0, p)

end Pool

/-- A node of one of the pools of a workspace, with its kind. -/
structure Handle where
  pool : Nat
  id : Nat
  kind : Kind
deriving DecidableEq, Repr, Inhabited

/-- Rows of pools, in whatever form they keep their nodes.  Both operations give a number in the first pool
that they name, and never fail. -/
class NodeStore (σ : Type) where
  /-- The number of a node of a kind, added to the pool if it is new. -/
  intern : σ → (pool : Nat) → Kind → Node Nat → Nat × σ
  /-- The number of a node of another pool, added with everything below it if it is new. -/
  adopt : σ → (pool source id : Nat) → Nat × σ

/-- A row of pools. -/
structure Workspace where
  pools : Array Pool
deriving DecidableEq, Repr

namespace Workspace

/-- A workspace of empty pools. -/
def empty (pools : Nat) : Workspace := ⟨Array.replicate pools Pool.empty⟩

/-- The pool with a number. -/
def pool (w : Workspace) (i : Nat) : Pool := w.pools.getD i .empty

/-- The workspace with one pool replaced. -/
def setPool (w : Workspace) (i : Nat) (p : Pool) : Workspace := ⟨w.pools.setIfInBounds i p⟩

-- a construction works on a workspace unless its type says otherwise
@[default_instance]
instance : NodeStore Workspace where
  intern w pool kind node :=
    let (id, p) := (w.pool pool).intern kind node
    (id, w.setPool pool p)
  adopt w pool source id :=
    let (id, p) := (w.pool pool).adopt (w.pool source) id
    (id, w.setPool pool p)

/-- Whether two handles stand for the same expression: in one pool they are the same node, and across
pools they agree in kind and digest. -/
def sameStructure (w : Workspace) (a b : Handle) : Bool :=
  if a.pool = b.pool then a.id = b.id
  else a.kind = b.kind && (w.pool a.pool).digest a.id = (w.pool b.pool).digest b.id

end Workspace

end ShaderDag
