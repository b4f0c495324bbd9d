import ShaderDag.Glsl.Term

/-!
# Stages of shader source

* `Precision` — the precision qualifiers;
* `Declaration`, `Statement` — the lines of a stage;
* `Stage` — the source of one stage, with its text;
* `ShaderPair` — the two stages, with their fingerprint.
-/

namespace ShaderDag

/-- How precise floating-point values are. -/
inductive Precision where
  | lowp
  | mediump
  | highp
deriving DecidableEq, Repr, Inhabited

namespace Precision

/-- All precisions, from low to high. -/
def all : List Precision := [lowp, mediump, highp]

/-- The qualifier in shader source. -/
def name : Precision → String
  | lowp => "lowp"
  | mediump => "mediump"
  | highp => "highp"

end Precision

/-- Where a declared input comes from.  A uniform may carry a precision. -/
inductive Storage where
  | attribute
  | uniform (precision : Option Precision)
  | varying
deriving DecidableEq, Repr

/-- The qualifiers of a declaration. -/
def Storage.text : Storage → String
  | .attribute => "attribute"
  | .uniform none => "uniform"
  | .uniform (some precision) => "uniform " ++ precision.name
  | .varying => "varying"

/-- The declaration of an input. -/
structure Declaration where
  storage : Storage
  kind : Kind
  name : String
deriving DecidableEq, Repr

/-- The line of a declaration. -/
def Declaration.text (d : Declaration) : String :=
  d.storage.text ++ " " ++ d.kind.name ++ " " ++ d.name ++ ";"

/-- A statement: the definition of a local, or an assignment to a varying or an output. -/
inductive Statement where
  | define (kind : Kind) (name : String) (value : Term)
  | assign (name : String) (value : Term)
deriving Repr

/-- The line of a statement. -/
def Statement.text : Statement → String
  | define kind name value => kind.name ++ " " ++ name ++ " = " ++ value.text ++ ";"
  | assign name value => name ++ " = " ++ value.text ++ ";"

/-- The source of one stage. -/
structure Stage where
  version : Option UInt32
  precision : Option Precision
  declarations : List Declaration
  body : List Statement
deriving Repr

namespace Stage

/-- The lines in front of the declarations. -/
def header (s : Stage) : List String :=
  (match s.version with
    | some version => ["#version " ++ toString version.toNat]
    | none => []) ++
  (match s.precision with
    | some precision => ["precision " ++ precision.name ++ " float;"]
    | none => [])

/-- All lines of a stage. -/
def lines (s : Stage) : List String :=
  s.header ++ s.declarations.map Declaration.text ++ ["", "void main() \x7b"] ++
    s.body.map (fun statement => "    " ++ statement.text) ++ ["\x7d"]

/-- The text of a stage: its lines, each with a line end. -/
def text (s : Stage) : String := String.join (s.lines.map (· ++ "\n"))

end Stage

/-- The source of both stages. -/
structure ShaderPair where
  vertex : Stage
  fragment : Stage
deriving Repr

/-- The bytes that stand for two source texts. -/
def pairRecord (vertex fragment : String) : List UInt8 := countedText vertex ++ countedText fragment

/-- The fingerprint of two source texts. -/
def pairFingerprint (vertex fragment : String) : Digest := digestOf (pairRecord vertex fragment)

/-- The fingerprint of a pair. -/
def ShaderPair.fingerprint (pair : ShaderPair) : Digest :=
  pairFingerprint pair.vertex.text pair.fragment.text

end ShaderDag
