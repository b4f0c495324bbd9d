/-!
# Kinds

Every value of a shader expression has one of six kinds.

* `Kind` — the closed set of value shapes;
* `Kind.name` / `Kind.ofName?` — the spelling of a kind in shader source, and its inverse;
* `Kind.isGenType`, `Kind.isVector`, `Kind.canInterpolate`, `Kind.canBeAttribute` — the classes that
  the signature tables and the stages ask about.
-/

namespace ShaderDag

/-- The kind of a value: a scalar, a vector, a 4×4 matrix or a texture sampler. -/
inductive Kind where
  | float
  | vec2
  | vec3
  | vec4
  | mat4
  | sampler2D
deriving DecidableEq, Repr, Inhabited

namespace Kind

/-- All kinds, in the order in which they are listed everywhere. -/
def all : List Kind := [float, vec2, vec3, vec4, mat4, sampler2D]

/-- The type name of a kind in shader source. -/
def name : Kind → String
  | float => "float"
  | vec2 => "vec2"
  | vec3 => "vec3"
  | vec4 => "vec4"
  | mat4 => "mat4"
  | sampler2D => "sampler2D"

/-- The name of a kind with a capital first letter, as descriptions of handles show it. -/
def title : Kind → String
  | float => "Float"
  | vec2 => "Vec2"
  | vec3 => "Vec3"
  | vec4 => "Vec4"
  | mat4 => "Mat4"
  | sampler2D => "Sampler2D"

/-- The kind with a given type name. -/
def ofName? (s : String) : Option Kind := all.find? (·.name == s)

/-- The position of a kind in `Kind.all`, which is how digests write it. -/
def tag : Kind → UInt8
  | float => 0
  | vec2 => 1
  | vec3 => 2
  | vec4 => 3
  | mat4 => 4
  | sampler2D => 5

/-- Scalars and vectors, on which most functions are defined component by component. -/
def isGenType : Kind → Bool
  | float | vec2 | vec3 | vec4 => true
  | mat4 | sampler2D => false

/-- Vectors of two, three or four components. -/
def isVector : Kind → Bool
  | vec2 | vec3 | vec4 => true
  | float | mat4 | sampler2D => false

/-- Kinds whose values may be interpolated from the vertex stage to the fragment stage. -/
def canInterpolate (k : Kind) : Bool := k.isGenType

/-- Kinds that a per-vertex attribute may have. -/
def canBeAttribute (k : Kind) : Bool := k.isGenType || k == mat4

/-- A list of kinds separated by commas. -/
def listText (ks : List Kind) : String := ", ".intercalate (ks.map name)

@[simp] theorem ofName?_name (k : Kind) : ofName? k.name = some k := by
  cases k <;> decide

theorem ofName?_eq_some_iff {s : String} {k : Kind} : ofName? s = some k ↔ s = k.name := by
  constructor
  · intro found
    rw [ofName?] at found
    have same := List.find?_some found
    exact (eq_of_beq same).symm
  · intro same
    rw [same, ofName?_name]

end Kind

end ShaderDag
