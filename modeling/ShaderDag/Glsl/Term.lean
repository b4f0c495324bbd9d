import ShaderDag.Graph.Pool
import ShaderDag.Name

/-!
# Terms of shader source

* `Term` — an expression of shader source;
* `Term.text` — its text, with every operation in parentheses;
* `Pool.term` — the term of a node, in which bound nodes are written by name.
-/

namespace ShaderDag

/-- What is applied to arguments: a function or the constructor of a kind. -/
inductive Callee where
  | function (function : Builtin)
  | constructor (kind : Kind)
deriving DecidableEq, Repr

/-- The name of a callee. -/
def Callee.name : Callee → String
  | function f => f.name
  | constructor kind => kind.name

/-- An expression of shader source. -/
inductive Term where
  | name (text : String)
  | literal (value : Constant)
  | operator (op : Operator) (lhs rhs : Term)
  | apply (callee : Callee) (args : List Term)
deriving Repr, Inhabited

/-! ### Text -/

/-- A piece of text that is still to be written. -/
inductive Piece where
  | text (text : String)
  | term (term : Term)
deriving Repr

namespace Piece

/-- Arguments with commas between them. -/
def arguments : List Term → List Piece
  | [] => []
  | [t] => [.term t]
  | t :: ts => .term t :: .text ", " :: arguments ts

/-- The pieces of a term, each smaller than the term. -/
def ofTerm : Term → List Piece
  | .name name => [.text name]
  | .literal value => [.text value.text]
  | .operator op lhs rhs => [.text "(", .term lhs, .text (" " ++ op.symbol ++ " "), .term rhs, .text ")"]
  | .apply callee args => .text (callee.name ++ "(") :: (arguments args ++ [.text ")"])

end Piece

namespace Term

mutual

/-- A bound on the number of pieces that a term falls into. -/
def weight : Term → Nat
  | .name _ => 2
  | .literal _ => 2
  | .operator _ lhs rhs => 4 + lhs.weight + rhs.weight
  | .apply _ args => 3 + weightAll args

/-- A bound on the number of pieces that arguments fall into. -/
def weightAll : List Term → Nat
  | [] => 0
  | t :: ts => 1 + t.weight + weightAll ts

end

end Term

namespace Piece

/-- A bound on the number of pieces that a piece falls into. -/
def weight : Piece → Nat
  | .text _ => 1
  | .term t => t.weight

/-- A bound on the number of pieces that a list of pieces falls into. -/
def totalWeight : List Piece → Nat
  | [] => 0
  | p :: ps => p.weight + totalWeight ps

@[simp] theorem totalWeight_append (ps qs : List Piece) :
    totalWeight (ps ++ qs) = totalWeight ps + totalWeight qs := by
  induction ps with
  | nil => simp [totalWeight]
  | cons p ps ih => simp only [List.cons_append, totalWeight, ih, Nat.add_assoc]

theorem totalWeight_arguments (args : List Term) : totalWeight (arguments args) ≤ Term.weightAll args := by
  fun_induction arguments args with
  | case1 => simp [totalWeight, Term.weightAll]
  | case2 t => simp [totalWeight, weight, Term.weightAll]
  | case3 t ts _ ih =>
    simp only [totalWeight, weight, Term.weightAll]
    omega

theorem totalWeight_ofTerm (t : Term) : totalWeight (ofTerm t) < t.weight := by
  cases t with
  | name => simp [ofTerm, totalWeight, weight, Term.weight]
  | literal => simp [ofTerm, totalWeight, weight, Term.weight]
  | operator =>
    simp only [ofTerm, totalWeight, weight, Term.weight]
    omega
  | apply callee args =>
    have := totalWeight_arguments args
    simp only [ofTerm, Term.weight, totalWeight, totalWeight_append, weight]
    omega

/-- Writes pending pieces behind a text, with a stack in place of recursion. -/
def write (out : String) (pending : List Piece) : String :=
  match pending with
  | [] => out
  | .text s :: rest => write (out ++ s) rest
  | .term t :: rest => write out (ofTerm t ++ rest)
termination_by totalWeight pending
decreasing_by
  · simp [totalWeight, weight]
  · have := totalWeight_ofTerm t
    simp only [totalWeight_append, totalWeight, weight]
    omega

end Piece

/-- The text of a term. -/
def Term.text (t : Term) : String := Piece.write "" [.term t]

/-! ### Terms of nodes -/

namespace Pool

/-- The term of a node.  A bound node is written by its name and not looked into; an attribute, uniform
or varying that is not bound cannot be written. -/
def term (p : Pool) (names : Binder) (id : Nat) : Except Failure Term :=
  match names.nameOf? id with
  | some name => .ok (.name name)
  | none =>
    match p.node? id with
    | some (.operator op lhs rhs) => do
      let l ← p.term names lhs.val
      let r ← p.term names rhs.val
      return .operator op l r
    | some (.call function args) => do
      return .apply (.function function) (← args.mapM fun (a : Fin id) => p.term names a.val)
    | some (.construct args) => do
      return .apply (.constructor (p.kind id)) (← args.mapM fun (a : Fin id) => p.term names a.val)
    | some (.literal value) => .ok (.literal value)
    | some (.attribute name) => .error (.unbound (.attribute name))
    | some (.uniform name) => .error (.unbound (.uniform name))
    | some (.varying _) => .error (.unbound (.varying (p.kind id) id))
    | none => .error (.unbound (.node id))
termination_by id
decreasing_by
  · exact lhs.isLt
  · exact rhs.isLt
  · exact a.isLt
  · exact a.isLt

end Pool

end ShaderDag
