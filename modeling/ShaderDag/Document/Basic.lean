import ShaderDag.Document.Inputs
import ShaderDag.Glsl.Assembly
import ShaderDag.Text.Compile

/-!
# Documents

A document describes a program: its inputs, definitions in order, and two outputs, all as text.

* `Document` — the description;
* `Document.build` — the program in a pool.
-/

namespace ShaderDag

/-- A named expression of a document, which may be interpolated between the stages. -/
structure Definition where
  name : String
  source : String
  varying : Bool
deriving DecidableEq, Repr

/-- The description of a program. -/
structure Document where
  attributes : InputTable
  uniforms : InputTable
  definitions : List Definition
  position : String
  colour : String
  options : Options
deriving DecidableEq, Repr

namespace Build

/-- Says which item of a document a failure belongs to; failures about names in use say it themselves. -/
def withinItem {σ α : Type} (item : Item) (action : BuildOn σ α) : BuildOn σ α :=
  EStateM.adaptExcept (Failure.within item) action

end Build

namespace Document

variable {σ : Type} [NodeStore σ]

/-- Declares the attributes of a document. -/
def buildAttributes (pool : Nat) (scope : Scope) : List (String × Kind) → BuildOn σ Scope
  | [] => pure scope
  | (name, kind) :: more => do
    Build.ofExcept (checkIdentifier name)
    let h ← Build.withinItem (.attribute name) (Build.addAttribute pool name kind)
    let scope ← Build.ofExcept (scope.define name h)
    buildAttributes pool scope more

/-- Declares the uniforms of a document. -/
def buildUniforms (pool : Nat) (scope : Scope) : List (String × Kind) → BuildOn σ Scope
  | [] => pure scope
  | (name, kind) :: more => do
    Build.ofExcept (checkIdentifier name)
    let h ← Build.addUniform pool name kind
    let scope ← Build.ofExcept (scope.define name h)
    buildUniforms pool scope more

/-- The value of a definition. -/
def buildDefinition (pool : Nat) (scope : Scope) (d : Definition) : BuildOn σ Handle := do
  let h ← Build.compile pool d.source scope
  if d.varying then Build.varying h else return h

/-- Defines the names of a document in order; each is visible to the later ones. -/
def buildDefinitions (pool : Nat) (scope : Scope) : List Definition → BuildOn σ Scope
  | [] => pure scope
  | d :: more => do
    Build.ofExcept (checkIdentifier d.name)
    let h ← Build.withinItem (.definition d.name) (buildDefinition pool scope d)
    let scope ← Build.ofExcept (scope.define d.name h)
    buildDefinitions pool scope more

/-- The scope of a document's outputs. -/
def buildScope (doc : Document) (pool : Nat) : BuildOn σ Scope := do
  let scope ← buildAttributes pool .empty doc.attributes.entries
  let scope ← buildUniforms pool scope doc.uniforms.entries
  buildDefinitions pool scope doc.definitions

/-- The program of a document, built in a pool. -/
def build (doc : Document) (pool : Nat) : BuildOn σ Program := do
  let scope ← doc.buildScope pool
  let position ← Build.withinItem (.output .position) (Build.compile pool doc.position scope)
  let colour ← Build.withinItem (.output .colour) (Build.compile pool doc.colour scope)
  Program.ofHandles position colour

end Document

end ShaderDag
