import ShaderDag.Command.Files
import ShaderDag.Document.Reader
import ShaderDag.Graph.Table
import ShaderDag.Json.Writer

/-!
# The command line

Two commands read a document: `compile` prints or writes the source of both stages, `fingerprint` prints
its fingerprint.

* `Invocation` — what the arguments ask for, with `Invocation.parse?`;
* `Outcome` — exit code and output;
* `runCommand` — a whole run, on any file system.
-/

namespace ShaderDag

/-- What the command line asks for. -/
inductive Invocation where
  | version
  | compile (input : String) (directory : Option String) (json : Bool)
  | fingerprint (input : String)
deriving DecidableEq, Repr

/-! ### Arguments -/

/-- The options of a command that have been given. -/
structure Arguments where
  input : Option String
  directory : Option String
  json : Bool
deriving DecidableEq, Repr

/-- The options that a command takes. -/
inductive CommandName where
  | compile
  | fingerprint
deriving DecidableEq, Repr

namespace Arguments

/-- A value for an option that is given once and not empty. -/
def value? (old : Option String) (value : String) : Option (Option String) :=
  if old.isNone ∧ value ≠ "" then some (some value) else none

/-- The arguments with a value for one option. -/
def set? (command : CommandName) (args : Arguments) (option value : String) : Option Arguments :=
  match option, command with
  | "--in", _ => do return { args with input := ← value? args.input value }
  | "--out-dir", .compile => do return { args with directory := ← value? args.directory value }
  | _, _ => none

/-- Whether an argument may be the value of the option in front of it. -/
def isValue (argument : String) : Bool := argument = "-" || !argument.toList.head?.any (· == '-')

/-- The option and the value of an argument with an equals sign. -/
def split? (argument : String) : Option (String × String) :=
  let cs := argument.toList
  let option := cs.takeWhile (· != '=')
  match cs.dropWhile (· != '=') with
  | _ :: value => some (String.ofList option, String.ofList value)
  | [] => none

/-- The options of a command; none if they cannot be understood. -/
def parse? (command : CommandName) (args : Arguments) : List String → Option Arguments
  | [] => some args
  | ["--"] => some args
  | "--json" :: rest =>
    if command = .compile ∧ args.json = false then parse? command { args with json := true } rest
    else none
  | argument :: rest =>
    match split? argument with
    | some (option, value) => do parse? command (← set? command args option value) rest
    | none =>
      match rest with
      | value :: rest => do
        if isValue value then parse? command (← set? command args argument value) rest else none
      | [] => none

end Arguments

/-- What a list of arguments asks for; none if it cannot be understood. -/
def Invocation.parse? : List String → Option Invocation
  | "compile" :: rest => do
    let args ← Arguments.parse? .compile ⟨none, none, false⟩ rest
    return .compile (← args.input) args.directory args.json
  | "fingerprint" :: rest => do
    let args ← Arguments.parse? .fingerprint ⟨none, none, false⟩ rest
    return .fingerprint (← args.input)
  | first :: _ =>
    if first = "--version" ∨ ['-', 'V'].isPrefixOf first.toList then some .version else none
  | [] => none

/-! ### Runs -/

/-- The result of a run. -/
structure Outcome where
  code : UInt32
  output : String
  errors : String
deriving DecidableEq, Repr

namespace Outcome

/-- A run that printed something. -/
def printed (output : String) : Outcome := ⟨0, output, ""⟩

/-- A text with all its lines moved to the right. -/
def indented (text : String) : String :=
  let margin := [' ', ' ', ' ', ' ']
  String.ofList (margin ++ text.toList.flatMap fun c => if c == '\n' then c :: margin else [c])

/-- A run that failed, behind what it had reported before. -/
def failed (reported message : String) (cause : Option String) : Outcome :=
  ⟨1, "",
    reported ++ "Error: " ++ message ++ "\n" ++
      match cause with
      | some cause => "\nCaused by:\n" ++ indented cause ++ "\n"
      | none => ""⟩

end Outcome

/-- The line that `--version` prints. -/
def versionLine : String := "shadergraph 0.1.0\n"

/-- The lines that explain the command line. -/
def usageText : String :=
  "Usage: shadergraph compile --in <IN_PATH> [--out-dir <OUT_DIR>] [--json]\n" ++
    "       shadergraph fingerprint --in <IN_PATH>\n"

/-- The document that was read from `path`. -/
def documentOf (path : String) : FileContents → Except Outcome Document
  | .cannotOpen e => .error (.failed "" (Failure.ofCause (.cannotOpen path)).message (some e.text))
  | .cannotRead e => .error (.failed "" (Failure.ofCause (.unreadableFile e.text)).message none)
  | .bytes bytes =>
    match Document.ofBytes bytes with
    | .ok doc => .ok doc
    | .error f => .error (.failed "" f.message none)

/-- The source texts of a document that was read from `path`. -/
def sourceOf (path : String) (doc : Document) : Except Outcome (String × String) :=
  match (doc.build 0).run (Tables.empty 1) with
  | .error f _ => .error (.failed "" ("build program '" ++ path ++ "'") (some f.message))
  | .ok program tables =>
    match program.assemble tables.view doc.options with
    | .error f => .error (.failed "" ("generate shaders for '" ++ path ++ "'") (some f.message))
    | .ok pair => .ok (pair.vertex.text, pair.fragment.text)

variable {m : Type → Type} [Monad m]

/-- Writes files into a directory and reports each; the first error ends the run. -/
def writeFiles (fs : FileSystem m) (directory : String) :
    (reported : String) → List (String × String) → m Outcome
  | reported, [] => return ⟨0, "", reported⟩
  | reported, (name, text) :: more => do
    let path := joinPath directory name
    match ← fs.write path text with
    | .ok () => writeFiles fs directory (reported ++ "wrote " ++ path ++ "\n") more
    | .error e => return Outcome.failed reported ("write shader '" ++ path ++ "'") (some e.text)

/-- The texts of both stages, as JSON or one after the other. -/
def printedPair (vertex fragment : String) (json : Bool) : String :=
  if json then
    Json.writeObject
      [("fingerprint", (pairFingerprint vertex fragment).text), ("fragment", fragment),
        ("vertex", vertex)] ++ "\n"
  else "// vertex\n" ++ vertex ++ "// fragment\n" ++ fragment

/-- A run of an invocation. -/
def Invocation.run (fs : FileSystem m) : Invocation → m Outcome
  | .version => return .printed versionLine
  | .fingerprint input => do
    match documentOf input (← fs.read input) >>= sourceOf input with
    | .error outcome => return outcome
    | .ok (vertex, fragment) => return .printed ((pairFingerprint vertex fragment).text ++ "\n")
  | .compile input directory json => do
    match documentOf input (← fs.read input) >>= sourceOf input with
    | .error outcome => return outcome
    | .ok (vertex, fragment) =>
      match directory with
      | none => return .printed (printedPair vertex fragment json)
      | some directory =>
        match ← fs.createDirectories directory with
        | .error e =>
          return .failed "" ("create output dir '" ++ directory ++ "'") (some e.text)
        | .ok () =>
          let stem := (fileStem? input).getD "program"
          writeFiles fs directory "" [(stem ++ ".vert", vertex), (stem ++ ".frag", fragment)]

/-- A run of the command line; arguments that cannot be understood end it with code 2. -/
def runCommand (fs : FileSystem m) (args : List String) : m Outcome :=
  match Invocation.parse? args with
  | some invocation => invocation.run fs
  | none => return ⟨2, "", usageText⟩

end ShaderDag
