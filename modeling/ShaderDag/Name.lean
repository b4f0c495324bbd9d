import ShaderDag.Failure
import ShaderDag.Signature
import ShaderDag.Text.Lexer

/-!
# Names

A declared name is a letter or underscore followed by letters, digits and underscores, and does not start
like the built-in variables.  A binder knows which names are in use and which node each bound name stands for.

* `isIdentifier`, `checkIdentifier` — whether a name may be declared, with the reason if not;
* `reservedNames` — every name that generated source never declares;
* `varyingLead` — the start of the names of varyings, chosen clear of all given names;
* `Binder.reserve`, `Binder.bind` — take a name, without and with a node;
* `Binder.uniqueName` — a free name made from a base;
* `Binder.nameOf?`, `Binder.isUsed` — look-ups.
-/

namespace ShaderDag

/-! ### Identifiers -/

/-- Whether a text starts with another one. -/
def startsWith (lead text : String) : Bool := lead.toList.isPrefixOf text.toList

/-- The start of every built-in variable's name. -/
def builtinLead : String := "gl_"

/-- Whether a text has the shape of a name. -/
def isIdentifier (text : String) : Bool :=
  match text.toList with
  | c :: cs => isNameStart c && cs.all isNamePart
  | [] => false

/-- Accepts the names that may be declared. -/
def checkIdentifier (name : String) : Except Failure Unit :=
  if !isIdentifier name then .error ⟨.notIdentifier name, none, none⟩
  else if startsWith builtinLead name then .error ⟨.builtinName name builtinLead, none, none⟩
  else .ok ()

/-! ### Reserved names -/

/-- Keywords, words kept for future use, type names and the entry point. -/
def reservedWords : List String := [
  "attribute", "const", "uniform", "varying", "break", "continue", "do", "for", "while", "if",
  "else", "in", "out", "inout", "float", "int", "void", "bool", "true", "false", "lowp",
  "mediump", "highp", "precision", "invariant", "discard", "return", "mat2", "mat3", "mat4",
  "vec2", "vec3", "vec4", "ivec2", "ivec3", "ivec4", "bvec2", "bvec3", "bvec4", "sampler2D",
  "samplerCube", "struct", "asm", "class", "union", "enum", "typedef", "template", "this",
  "packed", "goto", "switch", "default", "inline", "noinline", "volatile", "public", "static",
  "extern", "external", "interface", "flat", "long", "short", "double", "half", "fixed",
  "unsigned", "superp", "input", "output", "hvec2", "hvec3", "hvec4", "dvec2", "dvec3", "dvec4",
  "fvec2", "fvec3", "fvec4", "sampler1D", "sampler3D", "sampler1DShadow", "sampler2DShadow",
  "sampler2DRect", "sampler3DRect", "sampler2DRectShadow", "sizeof", "cast", "namespace", "using",
  "main"]

/-- The variables that the two stages write their result to. -/
def outputNames : List String := ["gl_Position", "gl_FragColor"]

/-- Every name that generated source never declares: keywords, functions and stage outputs. -/
def reservedNames : List String := reservedWords ++ Builtin.names ++ outputNames

/-- The word `varying` followed by underscores. -/
def varyingStem (underscores : Nat) : String :=
  "varying" ++ String.ofList (List.replicate underscores '_')

/-- The length of the longest of some names. -/
def longestName (names : List String) : Nat := names.foldl (fun n s => max n s.toList.length) 0

/-- The word `varying` with the fewest underscores, at least one, that starts no reserved name and none
of the names that are taken.  A stem longer than every name starts none of them, so one is found. -/
def varyingLead (taken : List String) : String :=
  let names := reservedNames ++ taken
  let clear := fun underscores => !names.any (startsWith (varyingStem underscores))
  let bound := longestName names + 1
  varyingStem (((List.range' 1 bound).find? clear).getD bound)

/-! ### Binders -/

/-- Names in use, nodes with their names, and for some bases a suffix below which all are in use. -/
structure Binder where
  used : List String
  bound : List (Nat × String)
  nextSuffix : List (String × Nat)
deriving DecidableEq, Repr, Inhabited

namespace Binder

/-- The binder without names. -/
def empty : Binder := ⟨[], [], []⟩

/-- The binder in which exactly the reserved names are in use. -/
def withReserved : Binder := ⟨reservedNames, [], []⟩

/-- Whether a name is reserved or bound. -/
def isUsed (b : Binder) (name : String) : Bool := b.used.contains name

/-- The name of a node. -/
def nameOf? (b : Binder) (id : Nat) : Option String := b.bound.lookup id

/-- Whether a node has a name. -/
def isBound (b : Binder) (id : Nat) : Bool := (b.nameOf? id).isSome

/-- The number of nodes with names. -/
def size (b : Binder) : Nat := b.bound.length

/-- Takes a name that is not in use. -/
def reserve (b : Binder) (name : String) : Except Failure Binder := do
  checkIdentifier name
  if b.isUsed name then throw (Failure.ofCause (.nameInUse name))
  else return { b with used := name :: b.used }

/-- Gives a node without a name a name that is not in use. -/
def bind (b : Binder) (id : Nat) (name : String) : Except Failure Binder := do
  checkIdentifier name
  match b.nameOf? id with
  | some existing => throw (Failure.ofCause (.alreadyBound id existing))
  | none =>
    let b ← b.reserve name
    return { b with bound := (id, name) :: b.bound }

/-- A base with a numbered suffix. -/
def suffixed (base : String) (n : Nat) : String := base ++ "_" ++ toString n

/-- The first suffix worth trying for a base. -/
def firstSuffix (b : Binder) (base : String) : Nat := (b.nextSuffix.lookup base).getD 0

/-- The least suffix from `start` on that makes a free name.  Of one more suffixes than there are names
in use, one is free. -/
def freeSuffix (b : Binder) (base : String) (start : Nat) : Nat :=
  ((List.range' start (b.used.length + 1)).find? fun n => !b.isUsed (suffixed base n)).getD
    (start + b.used.length)

/-- The base itself if it is free, otherwise the base with the least suffix that makes a free name.  The
name is not taken yet. -/
def uniqueName (b : Binder) (base : String) : String × Binder :=
  if b.isUsed base then
    let n := b.freeSuffix base (b.firstSuffix base)
    (suffixed base n, { b with nextSuffix := (base, n) :: b.nextSuffix })
  else (base, b)

end Binder

end ShaderDag
