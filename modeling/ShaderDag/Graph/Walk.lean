import ShaderDag.Graph.Pool

/-!
# Walks

A walk visits a node below all of its children: ask about the node; if it is let through, walk its
children from left to right, then yield it.  The question may depend on what was asked before.

* `Pool.walk` — the walk as a recursion;
* `Walk` — the same walk one node at a time, with `Walk.next` and `Walk.restart`;
* `askOnce` — the question that lets every node through once.
-/

namespace ShaderDag

/-- A question about nodes with a memory of type `σ`. -/
abbrev Ask (σ : Type) := Nat → StateM σ Bool

/-- Lets a node through if a predicate holds, without memory. -/
def askIf {σ : Type} (keep : Nat → Bool) : Ask σ := fun id => pure (keep id)

/-- Lets a node through if it was not let through before. -/
def askOnce : Ask (List Nat) := fun id seen =>
  if seen.contains id then (false, seen) else (true, id :: seen)

/-- Lets a node through if a predicate holds and it was not let through before. -/
def askOnceIf (keep : Nat → Bool) : Ask (List Nat) := fun id seen =>
  if keep id then askOnce id seen else (false, seen)

variable {σ : Type}

namespace Pool

/-- The nodes yielded by the walk from `id`, in order. -/
def walk (p : Pool) (ask : Ask σ) (id : Nat) : StateM σ (List Nat) := do
  if ← ask id then
    let below ← (p.children id).mapM fun (c : Fin id) => p.walk ask c.val
    return below.flatten ++ [id]
  else return []
termination_by id
decreasing_by exact c.isLt

/-- The walks from several roots, one after the other. -/
def walkAll (p : Pool) (ask : Ask σ) (roots : List Nat) : StateM σ (List Nat) := do
  return (← roots.mapM (p.walk ask)).flatten

/-- The distinct nodes that roots reach, children first. -/
def reachable (p : Pool) (roots : List Nat) : List Nat := (p.walkAll askOnce roots []).1

end Pool

/-! ### One node at a time -/

/-- A walk in progress: the root, whether it has been asked about, and the nodes that were let through
and are not yet yielded, innermost first, each with the children that are still to be asked about. -/
structure Walk where
  root : Nat
  started : Bool
  stack : List (Nat × List Nat)
deriving Repr

namespace Walk

/-- The walk from a root, not yet started. -/
def start (root : Nat) : Walk := ⟨root, false, []⟩

/-- The walk back at its root.  The question keeps its memory. -/
def restart (w : Walk) : Walk := start w.root

/-- The children of a node as plain numbers. -/
def childList (p : Pool) (id : Nat) : List Nat := (p.children id).map Fin.val

/-- The number of questions and yields that a node leads to once it has been let through, at most. -/
def cost (p : Pool) (id : Nat) : Nat :=
  (p.children id).foldr (fun (c : Fin id) n => 1 + cost p c.val + n) 1
termination_by id
decreasing_by exact c.isLt

/-- The number of questions and yields that a node with some pending children leads to, at most. -/
def pendingCost (p : Pool) : List Nat → Nat
  | [] => 1
  | c :: cs => 1 + cost p c + pendingCost p cs

/-- The number of questions and yields that an unfinished stack leads to, at most. -/
def work (p : Pool) : List (Nat × List Nat) → Nat
  | [] => 0
  | (_, pending) :: stack => pendingCost p pending + work p stack

theorem cost_eq (p : Pool) (id : Nat) : cost p id = pendingCost p (childList p id) := by
  rw [cost, childList]
  generalize p.children id = cs
  induction cs with
  | nil => rfl
  | cons c cs ih => rw [List.foldr_cons, ih, List.map_cons, pendingCost]

/-- Works on a stack up to the next node that is complete, and yields it. -/
def advance (p : Pool) (ask : Ask σ) (stack : List (Nat × List Nat)) :
    StateM σ (Option Nat × List (Nat × List Nat)) :=
  match stack with
  | [] => pure (none, [])
  | (id, []) :: rest => pure (some id, rest)
  | (id, c :: cs) :: rest => do
    if ← ask c then advance p ask ((c, childList p c) :: (id, cs) :: rest)
    else advance p ask ((id, cs) :: rest)
termination_by work p stack
decreasing_by
  · have := cost_eq p c
    simp only [work, pendingCost]
    omega
  · simp only [work, pendingCost]
    omega

/-- The stack that a walk goes on with.  Only a walk that has not started asks about its root. -/
def enter (p : Pool) (ask : Ask σ) (w : Walk) : StateM σ (List (Nat × List Nat)) :=
  if w.started then pure w.stack
  else do
    if ← ask w.root then return [(w.root, childList p w.root)] else return []

/-- The next node of a walk, or none once the walk has ended. -/
def next (p : Pool) (ask : Ask σ) (w : Walk) : StateM σ (Option Nat × Walk) := do
  let (item, stack) ← advance p ask (← enter p ask w)
  return (item, ⟨w.root, true, stack⟩)

/-- The next nodes of a walk, at most `count` of them. -/
def take (p : Pool) (ask : Ask σ) : (count : Nat) → Walk → StateM σ (List Nat × Walk)
  | 0, w => pure ([], w)
  | count + 1, w => do
    match ← next p ask w with
    | (none, w) => return ([], w)
    | (some id, w) =>
      let (ids, w) ← take p ask count w
      return (id :: ids, w)

end Walk

end ShaderDag
