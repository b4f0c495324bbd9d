import ShaderDag.Glsl.Assembly

/-!
# Statically kinded expressions

The same constructions with the kinds in the types: an operation takes only operands for which it is
defined, so none of them fails.

* `Typed` — a handle whose kind is part of its type;
* `GenType`, `AttributeKind` — the kinds that a generic construction ranges over;
* `BinaryForm`, `ConstructForm`, `CallForm` — the combinations of kinds that operators, constructors and
  functions accept;
* `Typed.binary`, `Typed.construct`, `Typed.call`, … — the constructions;
* `Typed.ofHandle` and the functions `find?` — the way here from kinds that are known only at run time.
-/

namespace ShaderDag

/-- A node of one of the pools, of a kind that is known. -/
structure Typed (kind : Kind) where
  pool : Nat
  id : Nat
deriving DecidableEq, Repr

/-- Arguments of known kinds. -/
inductive TypedArgs : List Kind → Type where
  | nil : TypedArgs []
  | cons {kind : Kind} {kinds : List Kind} (head : Typed kind) (tail : TypedArgs kinds) :
      TypedArgs (kind :: kinds)

/-! ### Combinations of kinds -/

/-- Scalars and vectors. -/
inductive GenType : Kind → Type where
  | float : GenType .float
  | vec2 : GenType .vec2
  | vec3 : GenType .vec3
  | vec4 : GenType .vec4
deriving DecidableEq, Repr

/-- Kinds of attributes. -/
inductive AttributeKind : Kind → Type where
  | float : AttributeKind .float
  | vec2 : AttributeKind .vec2
  | vec3 : AttributeKind .vec3
  | vec4 : AttributeKind .vec4
  | mat4 : AttributeKind .mat4
deriving DecidableEq, Repr

/-- The operands of an infix operator, and its result. -/
inductive BinaryForm : Operator → Kind → Kind → Kind → Type where
  | floats (op : Operator) : BinaryForm op .float .float .float
  | vec2s (op : Operator) : BinaryForm op .vec2 .vec2 .vec2
  | vec3s (op : Operator) : BinaryForm op .vec3 .vec3 .vec3
  | vec4s (op : Operator) : BinaryForm op .vec4 .vec4 .vec4
  | mat4s (op : Operator) : BinaryForm op .mat4 .mat4 .mat4
  | vec2Float (op : Operator) : BinaryForm op .vec2 .float .vec2
  | vec3Float (op : Operator) : BinaryForm op .vec3 .float .vec3
  | vec4Float (op : Operator) : BinaryForm op .vec4 .float .vec4
  | floatVec2 (op : Operator) : BinaryForm op .float .vec2 .vec2
  | floatVec3 (op : Operator) : BinaryForm op .float .vec3 .vec3
  | floatVec4 (op : Operator) : BinaryForm op .float .vec4 .vec4
  | mat4Vec4 : BinaryForm .mul .mat4 .vec4 .vec4
  | vec4Mat4 : BinaryForm .mul .vec4 .mat4 .vec4
deriving DecidableEq, Repr

/-- The arguments of a constructor. -/
inductive ConstructForm : Kind → List Kind → Type where
  | vec2 : ConstructForm .vec2 [.float, .float]
  | vec3 : ConstructForm .vec3 [.float, .float, .float]
  | vec3OfVec2 : ConstructForm .vec3 [.vec2, .float]
  | vec3OfFloat : ConstructForm .vec3 [.float, .vec2]
  | vec4 : ConstructForm .vec4 [.float, .float, .float, .float]
  | vec4OfVec2 : ConstructForm .vec4 [.vec2, .float, .float]
  | vec4OfVec2s : ConstructForm .vec4 [.vec2, .vec2]
  | vec4OfVec3 : ConstructForm .vec4 [.vec3, .float]
  | vec4OfFloat : ConstructForm .vec4 [.float, .vec3]
  | mat4 : ConstructForm .mat4 [.vec4, .vec4, .vec4, .vec4]
deriving DecidableEq, Repr

/-- The arguments of a function, and its result. -/
inductive CallForm : Builtin → List Kind → Kind → Type where
  | texture2D : CallForm .texture2D [.sampler2D, .vec2] .vec4
  | sin {g : Kind} : GenType g → CallForm .sin [g] g
  | cos {g : Kind} : GenType g → CallForm .cos [g] g
  | abs {g : Kind} : GenType g → CallForm .abs [g] g
  | fract {g : Kind} : GenType g → CallForm .fract [g] g
  | floor {g : Kind} : GenType g → CallForm .floor [g] g
  | normalize {g : Kind} : GenType g → CallForm .normalize [g] g
  | length {g : Kind} : GenType g → CallForm .length [g] .float
  | dot {g : Kind} : GenType g → CallForm .dot [g, g] .float
  | distance {g : Kind} : GenType g → CallForm .distance [g, g] .float
  | min {g : Kind} : GenType g → CallForm .min [g, g] g
  | max {g : Kind} : GenType g → CallForm .max [g, g] g
  | pow {g : Kind} : GenType g → CallForm .pow [g, g] g
  | step {g : Kind} : GenType g → CallForm .step [g, g] g
  | mix {g : Kind} : GenType g → CallForm .mix [g, g, .float] g
  | clamp {g : Kind} : GenType g → CallForm .clamp [g, .float, .float] g
  | cross : CallForm .cross [.vec3, .vec3] .vec3
deriving DecidableEq, Repr

/-! ### Constructions -/

namespace Typed

variable {kind : Kind}

/-- The handle without its static kind. -/
def erase (e : Typed kind) : Handle := ⟨e.pool, e.id, kind⟩

/-- Adds a node of a known kind. -/
def intern (pool : Nat) (kind : Kind) (node : Node Nat) : Build (Typed kind) := do
  let h ← Build.intern pool kind node
  return ⟨h.pool, h.id⟩

/-- A per-vertex input. -/
def addAttribute (pool : Nat) (_ : AttributeKind kind) (name : String) : Build (Typed kind) :=
  intern pool kind (.attribute name)

/-- A per-draw input. -/
def addUniform (pool : Nat) (kind : Kind) (name : String) : Build (Typed kind) :=
  intern pool kind (.uniform name)

/-- A constant. -/
def addConstant (pool : Nat) (value : Constant) : Build (Typed .float) :=
  intern pool .float (.literal value)

/-- A value interpolated from the vertex stage to the fragment stage. -/
def varying (_ : GenType kind) (inner : Typed kind) : Build (Typed kind) :=
  intern inner.pool kind (.varying inner.id)

/-- An infix operation in the pool of its left operand. -/
def binary {op : Operator} {l r : Kind} (_ : BinaryForm op l r kind) (lhs : Typed l) (rhs : Typed r) :
    Build (Typed kind) := do
  let right ← Build.adopt lhs.pool rhs.erase
  intern lhs.pool kind (.operator op lhs.id right)

/-- Arguments adopted into a pool, from left to right. -/
def adoptAll (pool : Nat) {kinds : List Kind} : TypedArgs kinds → Build (List Nat)
  | .nil => pure []
  | .cons head tail => do
    let id ← Build.adopt pool head.erase
    let ids ← adoptAll pool tail
    return id :: ids

/-- A constructor, applied in a pool. -/
def construct {kinds : List Kind} (pool : Nat) (_ : ConstructForm kind kinds) (args : TypedArgs kinds) :
    Build (Typed kind) := do
  intern pool kind (.construct (← adoptAll pool args))

/-- A function, applied in the pool of its first argument. -/
def call {function : Builtin} {first : Kind} {kinds : List Kind}
    (_ : CallForm function (first :: kinds) kind) (head : Typed first) (tail : TypedArgs kinds) :
    Build (Typed kind) := do
  let ids ← adoptAll head.pool tail
  intern head.pool kind (.call function (head.id :: ids))

/-- The program of two expressions. -/
def program (position colour : Typed .vec4) : Build Program :=
  Program.pair position.erase colour.erase

/-! ### From run-time kinds -/

/-- A handle of a given kind, or why it is not. -/
def ofHandle (kind : Kind) (h : Handle) : Except Failure (Typed kind) := do
  let h ← Build.expectKind kind h
  return ⟨h.pool, h.id⟩

/-- A handle with its own kind made static. -/
def ofOwnKind (h : Handle) : Typed h.kind := ⟨h.pool, h.id⟩

/-- The description of a handle. -/
def description (e : Typed kind) : String :=
  "Expr \x7b id: NodeId(" ++ toString e.id ++ "), kind: " ++ kind.title ++ " \x7d"

end Typed

/-- Handles with their own kinds made static. -/
def TypedArgs.ofHandles : (hs : List Handle) → TypedArgs (hs.map (·.kind))
  | [] => .nil
  | h :: hs => .cons (Typed.ofOwnKind h) (ofHandles hs)

/-- The description of a handle. -/
def Handle.description (h : Handle) : String :=
  "DynExpr \x7b id: NodeId(" ++ toString h.id ++ "), kind: " ++ h.kind.title ++ " \x7d"

/-- The evidence that a kind is a scalar or a vector. -/
def GenType.find? : (kind : Kind) → Option (GenType kind)
  | .float => some .float
  | .vec2 => some .vec2
  | .vec3 => some .vec3
  | .vec4 => some .vec4
  | .mat4 | .sampler2D => none

/-- The evidence that a kind can be an attribute's. -/
def AttributeKind.find? : (kind : Kind) → Option (AttributeKind kind)
  | .float => some .float
  | .vec2 => some .vec2
  | .vec3 => some .vec3
  | .vec4 => some .vec4
  | .mat4 => some .mat4
  | .sampler2D => none

/-- The form of an infix operation on two kinds. -/
def BinaryForm.find? : (op : Operator) → (l r : Kind) → Option ((kind : Kind) × BinaryForm op l r kind)
  | op, .float, .float => some ⟨_, .floats op⟩
  | op, .vec2, .vec2 => some ⟨_, .vec2s op⟩
  | op, .vec3, .vec3 => some ⟨_, .vec3s op⟩
  | op, .vec4, .vec4 => some ⟨_, .vec4s op⟩
  | op, .mat4, .mat4 => some ⟨_, .mat4s op⟩
  | op, .vec2, .float => some ⟨_, .vec2Float op⟩
  | op, .vec3, .float => some ⟨_, .vec3Float op⟩
  | op, .vec4, .float => some ⟨_, .vec4Float op⟩
  | op, .float, .vec2 => some ⟨_, .floatVec2 op⟩
  | op, .float, .vec3 => some ⟨_, .floatVec3 op⟩
  | op, .float, .vec4 => some ⟨_, .floatVec4 op⟩
  | .mul, .mat4, .vec4 => some ⟨_, .mat4Vec4⟩
  | .mul, .vec4, .mat4 => some ⟨_, .vec4Mat4⟩
  | _, _, _ => none

/-- The form of a constructor on arguments of some kinds. -/
def ConstructForm.find? : (kind : Kind) → (args : List Kind) → Option (ConstructForm kind args)
  | .vec2, [.float, .float] => some .vec2
  | .vec3, [.float, .float, .float] => some .vec3
  | .vec3, [.vec2, .float] => some .vec3OfVec2
  | .vec3, [.float, .vec2] => some .vec3OfFloat
  | .vec4, [.float, .float, .float, .float] => some .vec4
  | .vec4, [.vec2, .float, .float] => some .vec4OfVec2
  | .vec4, [.vec2, .vec2] => some .vec4OfVec2s
  | .vec4, [.vec3, .float] => some .vec4OfVec3
  | .vec4, [.float, .vec3] => some .vec4OfFloat
  | .mat4, [.vec4, .vec4, .vec4, .vec4] => some .mat4
  | _, _ => none

namespace CallForm

/-- The form of a function of two arguments of one kind. -/
def ofPair? {function : Builtin}
    (form : (g : Kind) → GenType g → (kind : Kind) × CallForm function [g, g] kind)
    (a b : Kind) : Option ((kind : Kind) × CallForm function [a, b] kind) :=
  if h : a = b then (GenType.find? a).map fun g => h ▸ form a g else none

/-- The form of a function on arguments of some kinds. -/
def find? : (function : Builtin) → (args : List Kind) →
    Option ((kind : Kind) × CallForm function args kind)
  | .texture2D, [.sampler2D, .vec2] => some ⟨_, .texture2D⟩
  | .sin, [g] => (GenType.find? g).map fun e => ⟨_, .sin e⟩
  | .cos, [g] => (GenType.find? g).map fun e => ⟨_, .cos e⟩
  | .abs, [g] => (GenType.find? g).map fun e => ⟨_, .abs e⟩
  | .fract, [g] => (GenType.find? g).map fun e => ⟨_, .fract e⟩
  | .floor, [g] => (GenType.find? g).map fun e => ⟨_, .floor e⟩
  | .normalize, [g] => (GenType.find? g).map fun e => ⟨_, .normalize e⟩
  | .length, [g] => (GenType.find? g).map fun e => ⟨_, .length e⟩
  | .dot, [a, b] => ofPair? (fun _ e => ⟨_, .dot e⟩) a b
  | .distance, [a, b] => ofPair? (fun _ e => ⟨_, .distance e⟩) a b
  | .min, [a, b] => ofPair? (fun _ e => ⟨_, .min e⟩) a b
  | .max, [a, b] => ofPair? (fun _ e => ⟨_, .max e⟩) a b
  | .pow, [a, b] => ofPair? (fun _ e => ⟨_, .pow e⟩) a b
  | .step, [a, b] => ofPair? (fun _ e => ⟨_, .step e⟩) a b
  | .mix, [a, b, .float] =>
    if h : a = b then (GenType.find? a).map fun e => ⟨a, h ▸ .mix e⟩ else none
  | .clamp, [g, .float, .float] => (GenType.find? g).map fun e => ⟨_, .clamp e⟩
  | .cross, [.vec3, .vec3] => some ⟨_, .cross⟩
  | _, _ => none

end CallForm

/-! ### Typed constructions on handles -/

namespace Build

/-- Forgets a static kind. -/
def erase {kind : Kind} (action : Build (Typed kind)) : Build Handle := return (← action).erase

/-- The typed attribute of a kind, if there is one. -/
def typedAttribute? (pool : Nat) (name : String) (kind : Kind) : Option (Build Handle) :=
  (AttributeKind.find? kind).map fun e => erase (Typed.addAttribute pool e name)

/-- The typed interpolation of a handle, if there is one. -/
def typedVarying? (inner : Handle) : Option (Build Handle) :=
  (GenType.find? inner.kind).map fun e => erase (Typed.varying e (Typed.ofOwnKind inner))

/-- The typed infix operation on two handles, if there is one. -/
def typedBinary? (op : Operator) (lhs rhs : Handle) : Option (Build Handle) :=
  (BinaryForm.find? op lhs.kind rhs.kind).map fun ⟨_, form⟩ =>
    erase (Typed.binary form (Typed.ofOwnKind lhs) (Typed.ofOwnKind rhs))

/-- The typed constructor on handles, if there is one. -/
def typedConstruct? (pool : Nat) (kind : Kind) (args : List Handle) : Option (Build Handle) :=
  (ConstructForm.find? kind (args.map (·.kind))).map fun form =>
    erase (Typed.construct pool form (TypedArgs.ofHandles args))

/-- The typed function on handles, if there is one. -/
def typedCall? (name : String) : List Handle → Option (Build Handle)
  | [] => none
  | head :: tail => do
    let function ← Builtin.ofName? name
    let ⟨_, form⟩ ← CallForm.find? function (head.kind :: tail.map (·.kind))
    return erase (Typed.call form (Typed.ofOwnKind head) (TypedArgs.ofHandles tail))

end Build

end ShaderDag
