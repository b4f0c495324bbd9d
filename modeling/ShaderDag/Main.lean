import ShaderDag.Command.Basic

/-!
# The program

The command line on the files of the machine.
-/

namespace ShaderDag

/-- The error of a file operation.  Some operations give the code of a long name with a minus sign. -/
def FileError.ofIO : IO.Error → FileError
  | .noFileOrDirectory .. => .notFound
  | .permissionDenied .. => .permissionDenied
  | .alreadyExists .. => .alreadyExists
  | .inappropriateType _ 21 _ => .isDirectory
  | .inappropriateType .. => .notDirectory
  | .invalidArgument name code details =>
    if code = 36 ∨ code + 36 = 0 then .nameTooLong
    else .other (IO.Error.invalidArgument name code details).toString
  | e => .other e.toString

/-- An action with its file error as a result. -/
def attempt (action : IO Unit) : IO (Except FileError Unit) := do
  try
    action
    return .ok ()
  catch e => return .error (FileError.ofIO e)

/-- Opens and reads a file. -/
def readFile (path : String) : IO FileContents := do
  try
    return .bytes (← IO.FS.readBinFile path).data.toList
  catch e =>
    match FileError.ofIO e with
    | .isDirectory => return .cannotRead .isDirectory
    | error => return .cannotOpen error

/-- The files of the machine. -/
def machineFiles : FileSystem IO where
  read := readFile
  isDirectory path := return (← readFile path) == .cannotRead .isDirectory
  makeDirectory path := attempt (IO.FS.createDir path)
  write path text := attempt (IO.FS.writeFile path text)

end ShaderDag

/-- Runs the command line and prints what it reports. -/
def main (args : List String) : IO UInt32 := do
  let outcome ← ShaderDag.runCommand ShaderDag.machineFiles args
  IO.print outcome.output
  IO.eprint outcome.errors
  return outcome.code
