import ShaderDag.Glsl.Term
import ShaderDag.Graph.Walk

/-!
# Printing nodes

A node is written as an expression without recursion.  What is still to be written waits on a stack of
texts and nodes, so that expressions may be of any depth.

* `Pending` — a text or a node that waits;
* `Pool.expand` — what a node without a name is replaced by;
* `Pool.print` — writes a stack behind a text;
* `Pool.emit` — the text of a node.
-/

namespace ShaderDag

/-- A text or a node that is still to be written. -/
inductive Pending where
  | text (text : String)
  | node (id : Nat)
deriving DecidableEq, Repr

namespace Pending

/-- Puts a row of arguments on a stack, from the last one to the first.  Each has its place with it, and
all but the one at place 0 have a comma in front. -/
def push (args : List (Nat × Nat)) (stack : List Pending) : List Pending :=
  args.foldr (fun (arg, place) stack =>
    if 0 < place then .text ", " :: .node arg :: stack else .node arg :: stack) stack

/-- Puts the arguments of a call on a stack, with the closing parenthesis below them. -/
def pushArguments (args : List Nat) (stack : List Pending) : List Pending :=
  push args.zipIdx (.text ")" :: stack)

/-- A bound on the number of pieces that a piece is replaced by in the end. -/
def weight (p : Pool) : Pending → Nat
  | .text _ => 1
  | .node id => 2 * Walk.cost p id

/-- A bound on the number of pieces that a stack is replaced by in the end. -/
def totalWeight (p : Pool) : List Pending → Nat
  | [] => 0
  | piece :: stack => piece.weight p + totalWeight p stack

theorem totalWeight_push (p : Pool) (args : List Nat) (place : Nat) (stack : List Pending) :
    totalWeight p (push (args.zipIdx place) stack) + 2 ≤
      2 * Walk.pendingCost p args + totalWeight p stack := by
  induction args generalizing place with
  | nil =>
    simp only [List.zipIdx_nil, push, List.foldr_nil, Walk.pendingCost]
    omega
  | cons arg args ih =>
    have rest := ih (place + 1)
    simp only [push] at rest
    simp only [List.zipIdx_cons, push, List.foldr_cons, Walk.pendingCost]
    split <;> simp only [totalWeight, weight] <;> omega

theorem totalWeight_pushArguments (p : Pool) (args : List Nat) (stack : List Pending) :
    totalWeight p (pushArguments args stack) < 2 * Walk.pendingCost p args + totalWeight p stack := by
  have row := totalWeight_push p args 0 (.text ")" :: stack)
  simp only [totalWeight, weight] at row
  rw [pushArguments]
  omega

end Pending

namespace Pool

/-- What a node without a name is replaced by on top of a stack: a text that is written at once, and the
pieces behind it.  An attribute, uniform or varying cannot be written. -/
def expand (p : Pool) (id : Nat) (stack : List Pending) : Except Failure (String × List Pending) :=
  match p.node? id with
  | some (.operator op lhs rhs) =>
    .ok ("(", .node lhs :: .text " " :: .text op.symbol :: .text " " :: .node rhs :: .text ")" :: stack)
  | some (.call function args) =>
    .ok (function.name ++ "(", Pending.pushArguments (args.map Fin.val) stack)
  | some (.construct args) =>
    .ok ((p.kind id).name ++ "(", Pending.pushArguments (args.map Fin.val) stack)
  | some (.literal value) => .ok (value.text, stack)
  | some (.attribute name) => .error (.unbound (.attribute name))
  | some (.uniform name) => .error (.unbound (.uniform name))
  | some (.varying _) => .error (.unbound (.varying (p.kind id) id))
  | none => .error (.unbound (.node id))

theorem totalWeight_expand {p : Pool} {id : Nat} {stack stack' : List Pending} {text : String}
    (h : p.expand id stack = .ok (text, stack')) :
    Pending.totalWeight p stack' < 2 * Walk.cost p id + Pending.totalWeight p stack := by
  have cost : ∀ n, p.node? id = some n →
      Walk.cost p id = Walk.pendingCost p (n.children.map Fin.val) := fun n hn => by
    rw [Walk.cost_eq, Walk.childList, Pool.children, hn, Option.map_some, Option.getD_some]
  unfold expand at h
  split at h
  case h_1 op lhs rhs hn =>
    cases h
    rw [cost _ hn]
    simp only [Node.children, List.map_cons, List.map_nil, Walk.pendingCost, Pending.totalWeight,
      Pending.weight]
    omega
  case h_2 function args hn =>
    cases h
    rw [cost _ hn]
    exact Pending.totalWeight_pushArguments p (args.map Fin.val) stack
  case h_3 args hn =>
    cases h
    rw [cost _ hn]
    exact Pending.totalWeight_pushArguments p (args.map Fin.val) stack
  case h_4 value hn =>
    cases h
    rw [cost _ hn]
    simp only [Node.children, List.map_nil, Walk.pendingCost]
    omega
  all_goals cases h

/-- Writes a stack behind a text.  A bound node is written by its name and not looked into. -/
def print (p : Pool) (names : Binder) (out : String) (stack : List Pending) : Except Failure String :=
  match stack with
  | [] => .ok out
  | .text s :: rest => p.print names (out ++ s) rest
  | .node id :: rest =>
    match names.nameOf? id with
    | some name => p.print names (out ++ name) rest
    | none =>
      match _expanded : p.expand id rest with
      | .ok (text, stack) => p.print names (out ++ text) stack
      | .error f => .error f
termination_by Pending.totalWeight p stack
decreasing_by
  · simp [Pending.totalWeight, Pending.weight]
  · have := Walk.cost_eq p id
    have : 0 < Walk.pendingCost p (Walk.childList p id) := by
      cases Walk.childList p id <;> simp only [Walk.pendingCost] <;> omega
    simp only [Pending.totalWeight, Pending.weight]
    omega
  · simp only [Pending.totalWeight, Pending.weight]
    exact totalWeight_expand _expanded

/-- The text of a node. -/
def emit (p : Pool) (names : Binder) (id : Nat) : Except Failure String := p.print names "" [.node id]

end Pool

end ShaderDag
