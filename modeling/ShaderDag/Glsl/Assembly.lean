import ShaderDag.Glsl.Hoist
import ShaderDag.Graph.Build

/-!
# Assembly

A program is a position, computed for each vertex, and a colour, computed for each fragment.  Its inputs
are named once, in a table that both stages start from; each stage then defines its own locals.

* `Options` — what the caller chooses about the source;
* `Inputs` — the attributes, uniforms and varyings of a program;
* `Pool.assemble` — the source of both stages;
* `Program` — a position and a colour of kind `vec4` in one pool, with `Program.ofHandles` and
  `Program.assemble`.
-/

namespace ShaderDag

/-- What the caller chooses about generated source: the precision of the fragment stage and of uniforms,
and the version line. -/
structure Options where
  precision : Precision
  version : Option UInt32
deriving DecidableEq, Repr

namespace Options

/-- Medium precision and no version line. -/
def standard : Options := ⟨.mediump, none⟩

instance : Inhabited Options := ⟨standard⟩

end Options

/-! ### Inputs -/

/-- The distinct inputs of a program in the order of their first occurrence; a varying comes with the
node that it interpolates. -/
structure Inputs where
  attributes : List (Nat × String)
  uniforms : List (Nat × String)
  varyings : List (Nat × Nat)
deriving DecidableEq, Repr

namespace Pool

/-- The attribute name of a node. -/
def attributeName? (p : Pool) (id : Nat) : Option String :=
  match p.node? id with
  | some (.attribute name) => some name
  | _ => none

/-- The uniform name of a node. -/
def uniformName? (p : Pool) (id : Nat) : Option String :=
  match p.node? id with
  | some (.uniform name) => some name
  | _ => none

/-- The node that a varying interpolates. -/
def varyingInner? (p : Pool) (id : Nat) : Option Nat :=
  match p.node? id with
  | some (.varying inner) => some inner
  | _ => none

/-- The inputs that some roots reach, through varyings too. -/
def inputs (p : Pool) (roots : List Nat) : Inputs :=
  let ids := p.reachable roots
  { attributes := ids.filterMap fun id => (p.attributeName? id).map (id, ·)
    uniforms := ids.filterMap fun id => (p.uniformName? id).map (id, ·)
    varyings := ids.filterMap fun id => (p.varyingInner? id).map (id, ·) }

/-- The question of `stageInputs`: lets every node through once and stops at inputs, which it collects. -/
def askStage (p : Pool) : Ask (List Nat × List Nat) := fun id (seen, found) =>
  if seen.contains id then (false, (seen, found))
  else if p.isInput id then (false, (id :: seen, id :: found))
  else (true, (id :: seen, found))

/-- The inputs that a stage with some roots reads; what a varying interpolates is not read by the stage. -/
def stageInputs (p : Pool) (roots : List Nat) : List Nat :=
  (p.walkAll p.askStage roots ([], [])).2.2

end Pool

namespace Inputs

/-- The names of attributes and uniforms, which the caller chose. -/
def callerNames (i : Inputs) : List (Nat × String) := i.attributes ++ i.uniforms

/-- Every varying with its name, numbered from zero. -/
def varyingNames (i : Inputs) : List (Nat × String) :=
  let lead := varyingLead (i.callerNames.map (·.2))
  i.varyings.zipIdx.map fun ((id, _), n) => (id, lead ++ toString n)

/-- The binder in which exactly the inputs are bound: attributes and uniforms to their own names,
varyings to made-up ones. -/
def bind (i : Inputs) : Except Failure Binder :=
  (i.callerNames ++ i.varyingNames).foldlM (fun b (id, name) => b.bind id name) Binder.withReserved

end Inputs

/-- The name of a bound node. -/
def Binder.name (b : Binder) (id : Nat) : Except Failure String :=
  match b.nameOf? id with
  | some name => .ok name
  | none => .error (.unbound (.node id))

/-! ### Declarations -/

/-- The storage of a uniform: every kind but samplers carries its precision, so that both stages declare
a uniform in the same way. -/
def uniformStorage (precision : Precision) (kind : Kind) : Storage :=
  .uniform (if kind = .sampler2D then none else some precision)

/-- The declarations of a stage: the attributes and uniforms that it reads, and all varyings. -/
def Inputs.declarations (i : Inputs) (p : Pool) (names : Binder) (precision : Precision)
    (read : List Nat) : Except Failure (List Declaration) :=
  let declare (storage : Kind → Storage) (id : Nat) : Except Failure Declaration := do
    return ⟨storage (p.kind id), p.kind id, ← names.name id⟩
  let attributes := (i.attributes.map (·.1)).filter read.contains
  let uniforms := (i.uniforms.map (·.1)).filter read.contains
  return (← attributes.mapM (declare fun _ => .attribute)) ++
    (← uniforms.mapM (declare (uniformStorage precision))) ++
    (← i.varyings.mapM fun (id, _) => declare (fun _ => .varying) id)

/-! ### Stages -/

/-- Runs an action on a binder of its own. -/
def Naming.runWith {α : Type} (names : Binder) (action : Naming α) : Except Failure α :=
  match action.run names with
  | .ok a _ => .ok a
  | .error f _ => .error f

/-- The body of a stage: locals for shared values, then the assignments. -/
def Pool.stageBody (p : Pool) (names : Binder) (assignments : List (String × Nat)) :
    Except Failure (List Statement) :=
  Naming.runWith names do
    let locals ← Naming.hoist p (assignments.map (·.2))
    let outputs ← assignments.mapM fun (name, id) => do return .assign name (← Naming.term p id)
    return locals ++ outputs

/-- The source of both stages of a program.  Varyings are computed by the vertex stage, before the
position; the vertex stage reads no varying, and the fragment stage no attribute. -/
def Pool.assemble (p : Pool) (position colour : Nat) (options : Options) :
    Except Failure ShaderPair := do
  let inputs := p.inputs [position, colour]
  let names ← inputs.bind
  let vertexRead := p.stageInputs (inputs.varyings.map (·.2) ++ [position])
  let fragmentRead := p.stageInputs [colour]
  if let some (id, _) := inputs.varyings.find? fun (id, _) => vertexRead.contains id then
    throw (.ofCause (.varyingInVertex (← names.name id)))
  if let some (id, _) := inputs.attributes.find? fun (id, _) => fragmentRead.contains id then
    throw (.ofCause (.attributeInFragment (← names.name id)))
  let varyings ← inputs.varyings.mapM fun (id, inner) => do return (← names.name id, inner)
  let vertexBody ← p.stageBody names (varyings ++ [("gl_Position", position)])
  let fragmentBody ← p.stageBody names [("gl_FragColor", colour)]
  return {
    vertex := ⟨options.version, none,
      ← inputs.declarations p names options.precision vertexRead, vertexBody⟩
    fragment := ⟨options.version, some options.precision,
      ← inputs.declarations p names options.precision fragmentRead, fragmentBody⟩ }

/-! ### Programs -/

/-- Where each vertex goes and what colour each fragment gets. -/
structure Program where
  pool : Nat
  position : Nat
  colour : Nat
deriving DecidableEq, Repr

namespace Program

section Building

variable {σ : Type} [NodeStore σ]

/-- The program of two handles that are known to be of kind `vec4`.  The colour is adopted into the
position's pool. -/
def pair (position colour : Handle) : BuildOn σ Program := do
  let id ← Build.adopt position.pool colour
  return ⟨position.pool, position.id, id⟩

/-- The program of two handles; the position is checked first. -/
def ofHandles (position colour : Handle) : BuildOn σ Program :=
  if position.kind ≠ .vec4 then Build.fail (.outputKind .position position.kind)
  else if colour.kind ≠ .vec4 then Build.fail (.outputKind .colour colour.kind)
  else pair position colour

end Building

/-- The source of a program. -/
def assemble (program : Program) (w : Workspace) (options : Options) : Except Failure ShaderPair :=
  (w.pool program.pool).assemble program.position program.colour options

end Program

end ShaderDag
