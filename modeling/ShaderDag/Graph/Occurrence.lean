import ShaderDag.Graph.Walk

/-!
# Occurrences

How often each node occurs in expressions that are written out in full.  A node that is shared by two
parents occurs twice, and so does everything below it.

* `Occurrences` — distinct nodes in the order of their first occurrence, with saturating counts;
* `Occurrences.ofSequence` — the tally of a sequence of nodes;
* `Occurrences.ofRoots` — the tally of the walks from several roots, computed from path counts without
  walking any node twice;
* `Occurrences.shared` — the nodes that occur more than once.
-/

namespace ShaderDag

/-- The largest count. -/
def maxCount : Nat := twoTo 64 - 1

/-- Addition that stops at the largest count. -/
def addCount (a b : Nat) : Nat := min (a + b) maxCount

/-- Nodes in the order of their first occurrence, each with its count. -/
structure Occurrences where
  entries : List (Nat × Nat)
deriving DecidableEq, Repr

namespace Occurrences

/-- The distinct nodes in the order of their first occurrence. -/
def order (o : Occurrences) : List Nat := o.entries.map (·.1)

/-- How often a node occurs. -/
def count (o : Occurrences) (id : Nat) : Nat := (o.entries.lookup id).getD 0

/-- The nodes that occur more than once, in the order of their first occurrence. -/
def shared (o : Occurrences) : List Nat := (o.entries.filter (1 < ·.2)).map (·.1)

/-- The number of distinct nodes. -/
def size (o : Occurrences) : Nat := o.entries.length

/-- More occurrences of a node that is listed already; other nodes are left out. -/
def addTo (id more : Nat) : List (Nat × Nat) → List (Nat × Nat)
  | [] => []
  | (key, count) :: entries =>
    if key = id then (key, addCount count more) :: entries else (key, count) :: addTo id more entries

/-- One more occurrence of a node. -/
def record (o : Occurrences) (id : Nat) : Occurrences :=
  if o.order.contains id then ⟨addTo id 1 o.entries⟩ else ⟨o.entries ++ [(id, 1)]⟩

/-- The tally of a sequence of nodes. -/
def ofSequence (ids : List Nat) : Occurrences := ids.foldl record ⟨[]⟩

/-- Passes the count of a node on to each of its children, once for every place where it stands. -/
def pushCount (p : Pool) (entries : List (Nat × Nat)) (id : Nat) : List (Nat × Nat) :=
  let paths := (entries.lookup id).getD 0
  (Walk.childList p id).foldl (fun entries c => addTo c paths entries) entries

/-- The tally of the walks from several roots with a predicate.  Each node is visited once; path counts
then flow from parents to children, in reverse order of the visits. -/
def ofRoots (p : Pool) (keep : Nat → Bool) (roots : List Nat) : Occurrences :=
  let roots := roots.filter keep
  let order := (p.walkAll (askOnceIf keep) roots []).1
  let start := order.map fun id => (id, min (roots.count id) maxCount)
  ⟨order.reverse.foldl (pushCount p) start⟩

end Occurrences

namespace Pool

/-- The nodes that occur more than once when the expression at `root` is written out in full. -/
def sharedBelow (p : Pool) (root : Nat) : List Nat :=
  (Occurrences.ofSequence (p.walk (askIf fun _ => true) root ()).1).shared

end Pool

end ShaderDag
