import ShaderDag.Kind

/-!
# Signatures of operators, constructors and functions

The tables that say which kinds an operation takes and which kind it gives.

* `Operator` — the three infix operators, with `Operator.result?`;
* `Kind.constructorForms` / `Kind.canConstruct` — the argument lists that a kind's constructor accepts;
* `Builtin` — the functions of the shading language, with `Builtin.result?`.
-/

namespace ShaderDag

/-! ### Infix operators -/

/-- An infix operator. -/
inductive Operator where
  | add
  | sub
  | mul
deriving DecidableEq, Repr, Inhabited

namespace Operator

/-- The operator's symbol in shader source. -/
def symbol : Operator → String
  | add => "+"
  | sub => "-"
  | mul => "*"

/-- The operator with a given symbol. -/
def ofSymbol? (s : String) : Option Operator := [add, sub, mul].find? (·.symbol == s)

/-- The operator's number in digests. -/
def tag : Operator → UInt8
  | add => 0
  | sub => 1
  | mul => 2

/-- The kind of `lhs op rhs`: equal kinds combine to themselves, a vector combines with a scalar on
either side, and a matrix multiplies a `vec4` on either side; samplers never combine. -/
def result? (op : Operator) (lhs rhs : Kind) : Option Kind :=
  if lhs = .sampler2D ∨ rhs = .sampler2D then none
  else if lhs = rhs then some lhs
  else if lhs.isVector ∧ rhs = .float then some lhs
  else if lhs = .float ∧ rhs.isVector then some rhs
  else
    match op, lhs, rhs with
    | mul, .mat4, .vec4 | mul, .vec4, .mat4 => some .vec4
    | _, _, _ => none

end Operator

/-! ### Constructors -/

namespace Kind

/-- The argument lists that the constructor of a kind accepts. -/
def constructorForms : Kind → List (List Kind)
  | float | sampler2D => []
  | vec2 => [[float, float]]
  | vec3 => [[float, float, float], [vec2, float], [float, vec2]]
  | vec4 =>
    [[float, float, float, float], [vec2, float, float], [vec2, vec2], [vec3, float], [float, vec3]]
  | mat4 => [[vec4, vec4, vec4, vec4]]

/-- Whether the constructor of `target` accepts arguments of the given kinds. -/
def canConstruct (target : Kind) (args : List Kind) : Bool := target.constructorForms.contains args

end Kind

/-! ### Functions -/

/-- A function of the shading language. -/
inductive Builtin where
  | texture2D
  | sin
  | cos
  | abs
  | fract
  | floor
  | normalize
  | length
  | dot
  | distance
  | min
  | max
  | pow
  | step
  | mix
  | clamp
  | cross
deriving DecidableEq, Repr, Inhabited

namespace Builtin

/-- All functions, in the order in which their names are listed. -/
def all : List Builtin :=
  [texture2D, sin, cos, abs, fract, floor, normalize, length, dot, distance, min, max, pow, step, mix,
    clamp, cross]

/-- The function's name in shader source. -/
def name : Builtin → String
  | texture2D => "texture2D"
  | sin => "sin"
  | cos => "cos"
  | abs => "abs"
  | fract => "fract"
  | floor => "floor"
  | normalize => "normalize"
  | length => "length"
  | dot => "dot"
  | distance => "distance"
  | min => "min"
  | max => "max"
  | pow => "pow"
  | step => "step"
  | mix => "mix"
  | clamp => "clamp"
  | cross => "cross"

/-- The names of all functions. -/
def names : List String := all.map name

/-- The function with a given name. -/
def ofName? (s : String) : Option Builtin := all.find? (·.name == s)

/-- The kind of a call with arguments of the given kinds. -/
def result? : Builtin → List Kind → Option Kind
  | texture2D, [.sampler2D, .vec2] => some .vec4
  | sin, [g] | cos, [g] | abs, [g] | fract, [g] | floor, [g] | normalize, [g] =>
    if g.isGenType then some g else none
  | length, [g] => if g.isGenType then some .float else none
  | dot, [a, b] | distance, [a, b] => if a = b ∧ a.isGenType then some .float else none
  | min, [a, b] | max, [a, b] | pow, [a, b] | step, [a, b] =>
    if a = b ∧ a.isGenType then some a else none
  | mix, [a, b, .float] => if a = b ∧ a.isGenType then some a else none
  | clamp, [x, .float, .float] => if x.isGenType then some x else none
  | cross, [.vec3, .vec3] => some .vec3
  | _, _ => none

@[simp] theorem ofName?_name (f : Builtin) : ofName? f.name = some f := by
  cases f <;> decide

theorem ofName?_eq_some_iff {s : String} {f : Builtin} : ofName? s = some f ↔ s = f.name := by
  constructor
  · intro found
    rw [ofName?] at found
    have same := List.find?_some found
    exact (eq_of_beq same).symm
  · intro same
    rw [same, ofName?_name]

end Builtin

end ShaderDag
