/-!
# Paths

The text of paths: names between slashes, read from the root if a slash stands in front and from the
working directory otherwise.

* `pathParts`, `pathSteps` — the parts between slashes, and those of them that lead somewhere;
* `enclosingPaths` — a path and the directories around it;
* `fileStem?`, `joinPath` — the name of a file without its extension, and a file of a directory.
-/

namespace ShaderDag

/-- The parts of a list of characters between slashes. -/
def slashParts : List Char → List (List Char)
  | [] => [[]]
  | c :: cs =>
    match slashParts cs with
    | [] => [[c]]
    | part :: parts => if c == '/' then [] :: part :: parts else (c :: part) :: parts

/-- The parts of a path between slashes. -/
def pathParts (path : String) : List String := (slashParts path.toList).map String.ofList

/-- The parts of a path that count for its outline: empty parts are dropped, and so are single dots,
except for one in front. -/
def pathSteps (path : String) : List String :=
  let parts := pathParts path
  let steps := parts.filter fun part => part ≠ "" ∧ part ≠ "."
  if parts.head? = some "." then "." :: steps else steps

/-- Whether a path starts at the root. -/
def isRooted (path : String) : Bool := path.toList.head?.any (· == '/')

/-- A path, and the paths to the directories around it, from the inmost outwards.  The root and the
working directory are there in any case and are left out. -/
def enclosingPaths (path : String) : List String :=
  let steps := pathSteps path
  let lead := if isRooted path then "/" else ""
  match (List.range steps.length).reverse with
  | [] => []
  | _ :: outer => path :: outer.map fun n => lead ++ "/".intercalate (steps.take (n + 1))

/-- A file name without its last extension; a dot in front starts no extension. -/
def stemOf (name : String) : String :=
  let cs := name.toList
  let extension := cs.reverse.takeWhile (· != '.')
  let stem := cs.take (cs.length - extension.length - 1)
  if extension.length = cs.length ∨ stem.isEmpty then name else String.ofList stem

/-- The last part of a path without its extension, if the path ends in a name. -/
def fileStem? (path : String) : Option String :=
  match (pathSteps path).getLast? with
  | none => none
  | some "." => none
  | some ".." => none
  | some name => some (stemOf name)

/-- A file of a directory; a slash at the end of the directory is not doubled. -/
def joinPath (directory file : String) : String :=
  if directory.toList.getLast? = some '/' then directory ++ file else directory ++ "/" ++ file

end ShaderDag
