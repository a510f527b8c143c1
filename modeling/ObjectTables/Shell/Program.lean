import ObjectTables.Shell.Lookup
import ObjectTables.Shell.Builtin.Output
import ObjectTables.Shell.Builtin.Directory
import ObjectTables.Shell.Program.Catenation
/-!
Programs that are not part of the shell.
-/
namespace ObjectTables.Shell.Program

/-- Why a program does not start. -/
structure Refusal where
  status : Nat
  why : String
deriving DecidableEq, Repr

/-- The status of a command that is found but cannot be run. -/
def refusedStatus : Nat := 126

/-- The status of a command that is not found. -/
def missingStatus : Nat := 127

/-- Writes its arguments as they are. -/
def echo (arguments : List Bytes) : Act Nat := do
  let (ending, words) := match arguments with
    | [0x2D, 0x6E] :: rest => ([], rest)
    | _ => ([code '\n'], arguments)
  modify (·.print ([code ' '].intercalate words ++ ending))
  return 0

/-- What a program does, by its name. -/
def body (name : String) (arguments : List Bytes) : Act Nat :=
  match name with
  | "[" => Builtin.test true arguments
  | "cat" => Catenation.run arguments
  | "echo" => echo arguments
  | "false" => return 1
  | "printf" => Builtin.printf arguments
  | "pwd" => Builtin.pwd arguments
  | "test" => Builtin.test false arguments
  | _ => return 0

/-- Why nothing can be run under a path. -/
def refusal (m : Machine) (p : Path) : Refusal :=
  match m.tree.locate m.directory p with
  | .error (.system .notFound) | .error (.system .notDirectory) =>
    if (m.find? p).isSome then ⟨refusedStatus, SystemError.permissionDenied.words⟩ else ⟨missingStatus, Callee.notFound⟩
  | .error (.system .nameTooLong) => ⟨missingStatus, SystemError.nameTooLong.words⟩
  | _ => ⟨refusedStatus, SystemError.permissionDenied.words⟩

/-- Runs the program under a path, to which a command refers by a name. -/
def run (p : Path) (name : Bytes) (arguments : List Bytes) : Act Nat := do
  let m ← get
  match m.find? p with
  | some (.outside .program) => body (Path.display ((Path.steps p).getLast?.getD [])) arguments
  | _ =>
    let r := refusal m p
    modify fun m => (m.complain (name ++ Bytes.ofString (": " ++ r.why))).finish r.status
    throw .ended

/-- Why nothing can be run by a name that is looked for along a path. -/
def refusalAlong (why : String) : Refusal :=
  ⟨if why = Callee.notFound || why = SystemError.nameTooLong.words then missingStatus else refusedStatus, why⟩

/-- Runs a program in place of the shell. -/
def replace (name : Bytes) (arguments : List Bytes) : Act Nat := do
  let m ← get
  match if Callee.isPath name then .ok name else Callee.search m (Callee.searchPath m) name with
  | .ok p =>
    let status ← run p name arguments
    modify (·.finish status)
    throw .replaced
  | .error why =>
    modify fun m => (m.complain (name ++ Bytes.ofString (": " ++ why))).finish (refusalAlong why).status
    throw .ended

end ObjectTables.Shell.Program
