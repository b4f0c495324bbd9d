import ShaderDag.Command.Files

/-!
# Files in memory

A tree of files below a root, in which every name and every path has a greatest length.

* `FileEntry` — what can stand at a place of the tree;
* `FileTree` — the entries and the working directory, with `FileTree.fresh`;
* `FileTree.locate` — the place that a path leads to;
* `FileTree.system` — the file operations on a tree.
-/

namespace ShaderDag

/-- What stands at a place.  A sink is empty whatever is written to it. -/
inductive FileEntry where
  | directory
  | file (bytes : List UInt8)
  | sink
deriving DecidableEq, Repr

/-- The entries of a file system by their places, and the working directory.  A place is the list of
names that lead to it from the root. -/
structure FileTree where
  home : List String
  entries : List (List String × FileEntry)
deriving DecidableEq, Repr

namespace FileTree

/-- The greatest number of bytes of a name. -/
def nameLimit : Nat := 255

/-- The greatest number of bytes of a path. -/
def pathLimit : Nat := 4095

/-- The tree with an empty working directory, and what every system has. -/
def fresh : FileTree :=
  ⟨["tmp", "work"],
    [(["tmp"], .directory), (["tmp", "work"], .directory), (["dev"], .directory),
      (["dev", "null"], .sink)]⟩

/-- What stands at a place, if anything; the root is a directory. -/
def entry? (t : FileTree) (place : List String) : Option FileEntry :=
  if place.isEmpty then some .directory else t.entries.lookup place

/-- The tree with an entry at a place. -/
def set (t : FileTree) (place : List String) (entry : FileEntry) : FileTree :=
  { t with entries := (place, entry) :: t.entries.filter (·.1 ≠ place) }

/-- The tree with one more file below the working directory, and the directories that lead to it. -/
def addFile (t : FileTree) (path : String) (bytes : List UInt8) : FileTree :=
  let place := t.home ++ (pathSteps path).filter (· ≠ ".")
  let leading := (List.range place.length).map place.take
  (leading.foldl (fun t place => t.set place .directory) t).set place (.file bytes)

/-! ### Places of paths -/

/-- Accepts a place that is a directory. -/
def checkDirectory (t : FileTree) (place : List String) : Except FileError Unit :=
  match t.entry? place with
  | some .directory => .ok ()
  | some _ => .error .notDirectory
  | none => .error .notFound

/-- The place that one part of a path leads to from a directory. -/
def enter (t : FileTree) (place : List String) (part : String) :
    Except FileError (List String) := do
  t.checkDirectory place
  if part = "" ∨ part = "." then return place
  else if part = ".." then return place.dropLast
  else if nameLimit < part.utf8ByteSize then throw .nameTooLong
  else return place ++ [part]

/-- The place that a path leads to, with its parts changed by `adapt`.  All parts but the last are
entered, so they have to be directories. -/
def locateWith (t : FileTree) (adapt : List String → List String) (path : String) :
    Except FileError (List String) :=
  if pathLimit < path.utf8ByteSize then .error .nameTooLong
  else
    match pathParts path with
    | [""] => .error .notFound
    | "" :: parts => (adapt parts).foldlM t.enter []
    | parts => (adapt parts).foldlM t.enter t.home

/-- The place that a path leads to; a path with a slash at its end has to lead to a directory. -/
def locate (t : FileTree) (path : String) : Except FileError (List String) := t.locateWith id path

/-- The place that a path leads to, whatever the slashes at its end. -/
def locateNew (t : FileTree) (path : String) : Except FileError (List String) :=
  t.locateWith (fun parts => (parts.reverse.dropWhile (· = "")).reverse) path

/-! ### Operations -/

/-- The bytes of the file that a path leads to. -/
def contents? (t : FileTree) (path : String) : Option (List UInt8) :=
  match t.locate path with
  | .error _ => none
  | .ok place =>
    match t.entry? place with
    | some (.file bytes) => some bytes
    | some .sink => some []
    | some .directory => none
    | none => none

/-- Opens and reads a file. -/
def read (t : FileTree) (path : String) : FileContents :=
  match t.locate path with
  | .error error => .cannotOpen error
  | .ok place =>
    match t.entry? place with
    | some (.file bytes) => .bytes bytes
    | some .sink => .bytes []
    | some .directory => .cannotRead .isDirectory
    | none => .cannotOpen .notFound

/-- Whether a path leads to a directory. -/
def isDirectory (t : FileTree) (path : String) : Bool :=
  match t.locate path with
  | .ok place => t.entry? place == some .directory
  | .error _ => false

/-- Makes a directory where nothing stands. -/
def makeDirectory (t : FileTree) (path : String) : Except FileError FileTree := do
  let place ← t.locateNew path
  if (t.entry? place).isSome then throw .alreadyExists else return t.set place .directory

/-- Writes a file. -/
def write (t : FileTree) (path : String) (bytes : List UInt8) : Except FileError FileTree := do
  let place ← t.locate path
  match t.entry? place with
  | some .directory => throw .isDirectory
  | some .sink => return t
  | _ => return t.set place (.file bytes)

/-- A change of the tree that may fail. -/
def change (f : FileTree → Except FileError FileTree) : StateM FileTree (Except FileError Unit) :=
  fun t =>
    match f t with
    | .ok t => (.ok (), t)
    | .error e => (.error e, t)

/-- The file operations on a tree. -/
def system : FileSystem (StateM FileTree) where
  read path := return (← get).read path
  isDirectory path := return (← get).isDirectory path
  makeDirectory path := change (·.makeDirectory path)
  write path text := change (·.write path text.toUTF8.data.toList)

end FileTree

end ShaderDag
