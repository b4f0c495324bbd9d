import ShaderDag.Command.Path

/-!
# Files

What the command line asks of a file system.

* `FileError` — why a file operation failed, as the system words it;
* `FileSystem` — the operations, in any monad;
* `FileSystem.createDirectories` — creates a directory and those around it.
-/

namespace ShaderDag

/-- Why a file operation failed. -/
inductive FileError where
  | notFound
  | permissionDenied
  | alreadyExists
  | notDirectory
  | isDirectory
  | nameTooLong
  | other (text : String)
deriving DecidableEq, Repr

/-- The system's wording of an error. -/
def FileError.text : FileError → String
  | notFound => "No such file or directory (os error 2)"
  | permissionDenied => "Permission denied (os error 13)"
  | alreadyExists => "File exists (os error 17)"
  | notDirectory => "Not a directory (os error 20)"
  | isDirectory => "Is a directory (os error 21)"
  | nameTooLong => "File name too long (os error 36)"
  | other text => text

/-- The outcome of reading a file: a directory can be opened but not read. -/
inductive FileContents where
  | cannotOpen (error : FileError)
  | cannotRead (error : FileError)
  | bytes (bytes : List UInt8)
deriving DecidableEq, Repr

/-- The file operations of the command line. -/
structure FileSystem (m : Type → Type) where
  read : (path : String) → m FileContents
  isDirectory : (path : String) → m Bool
  makeDirectory : (path : String) → m (Except FileError Unit)
  write : (path text : String) → m (Except FileError Unit)

namespace FileSystem

variable {m : Type → Type} [Monad m] (fs : FileSystem m)

/-- Makes a directory, or accepts one that is there. -/
def ensureDirectory (path : String) : m (Except FileError Unit) := do
  match ← fs.makeDirectory path with
  | .error .alreadyExists =>
    if ← fs.isDirectory path then return .ok () else return .error .alreadyExists
  | result => return result

/-- Makes the first directory of a list.  If it cannot be made because a directory around it is missing,
the rest of the list is made first. -/
def createFrom : List String → m (Except FileError Unit)
  | [] => return .ok ()
  | path :: outer => do
    match ← fs.ensureDirectory path with
    | .error .notFound =>
      match ← createFrom outer with
      | .ok () => fs.ensureDirectory path
      | .error error => return .error error
    | result => return result

/-- Creates a directory and the directories around it that are missing. -/
def createDirectories (path : String) : m (Except FileError Unit) :=
  fs.createFrom (enclosingPaths path)

end FileSystem

end ShaderDag
