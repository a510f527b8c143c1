import ObjectTables.Shell.Evaluation
import ObjectTables.Tool
/-!
Shells as processes: the programs that a call can start where there are no others.

A shell takes options first. After `-c` it runs its first argument as a script, otherwise the file that this
one names. Without arguments it would read a script from standard input, on which there is nothing.
-/
namespace ObjectTables.Shell

/-- How deep commands can stand in commands. -/
def depth : Nat := 100000

/-- The variables that a shell has at its start. -/
def Machine.initialBindings (directory : Location) : List (Bytes × Variable) :=
  let text (name value : String) (isExported : Bool) : Bytes × Variable :=
    (Bytes.ofString name, { value? := some (Bytes.ofString value), isExported := isExported })
  let current := Path.separator :: [Path.separator].intercalate directory
  [text "IFS" " \t\n" false, text "OPTIND" "1" false, text "PS1" "# " false, text "PS2" "> " false, text "PS4" "+ " false,
    text "PPID" (toString (Machine.mainProcess - 1)) false, text "HOME" "/root" true,
    (Variable.path, { value? := some Callee.standardPath, isExported := true }),
    (Bytes.ofString "PWD", { value? := some current, isExported := true })]

/-- A shell at its start: nothing on standard input, standard output in a file, and standard error
collected. -/
def Machine.initial (directory : Location) (name : Bytes) (output : Location) (t : FileTree) : Machine where
  tree := t
  directory := directory
  streams := #[
    { channel := .null, writes := false }, { channel := .file output 0 false, reads := false },
    { channel := .pipe 0, reads := false }]
  pipes := #[[]]
  descriptors := [(0, 0), (1, 1), (2, 2)]
  bindings := Machine.initialBindings directory
  name := name
  parameters := []
  process := Machine.mainProcess
  nextProcess := Machine.mainProcess + 1

namespace Process

/-- Where the script of a shell comes from. -/
inductive Origin where
  /-- Standard input. -/
  | input
  | argument (script : Bytes)
  | file (content : Bytes)
deriving DecidableEq, Repr

/-- Takes the arguments of a shell, and finds its script. -/
def start (arguments : List Bytes) : Act Origin := do
  let (isArgument, operands) ← Builtin.putSwitches true arguments.length arguments
  if (← get).isOn .interactive then Builtin.putSwitch .monitor true
  Builtin.refuseMonitor
  match operands with
  | [] =>
    if isArgument then Act.failWith "-c requires an argument"
    return .input
  | first :: rest =>
    if isArgument then
      modify fun m => { m with name := rest.head?.getD m.name, parameters := rest.drop 1 }
      return .argument first
    if (← get).isOn .standardInput then
      modify ({ · with parameters := operands })
      return .input
    let content ← Call.scriptContent first
    modify ({ · with name := first, parameters := rest })
    return .file content

/-- Runs a script of the shell. -/
def script (k : Lines.Kind) : Bytes → Act Nat := Lines.run (Evaluation.run depth false) k Evaluation.enoughRounds

/-- Runs a shell with its arguments. -/
def body (arguments : List Bytes) : Act Unit := do
  match ← start arguments with
  | .input => return
  | .argument text => let _ ← script .text text
  | .file text => let _ ← script .first text

end Process

/-- Runs a shell by its name and its arguments to its end. The answer is how it ended, and what it wrote to
standard error. -/
def runShell (directory : Location) (name : Bytes) (arguments : List Bytes) (output : Location) (t : FileTree) :
    (Ending × Bytes) × FileTree :=
  let (result, m) := (Trap.toEnd (Process.script .text) (Process.body arguments)).run (Machine.initial directory name output t)
  let ending : Ending := match result with
    | .ok none => .exited (UInt8.ofNat m.status)
    | _ => .killed
  ((ending, m.pipeContent 0), m.tree)

/-- The programs that can be started, and the name that each gives its shell; none is a shell for the
first two. -/
inductive Startable where
  | true
  | false
  | shell (name : Bytes)
deriving DecidableEq, Repr

/-- Starts programs by their names. A program that is named by a path is a file, which cannot be
executed. -/
def launch (directory : Location) (program? : String → Option Startable) : Launch := fun program arguments output t =>
  let bytes := Bytes.ofString program
  if bytes.contains 0 || arguments.any (·.contains 0) then (.error .nulInArgument, t)
  else match program? program with
    | some .true => (.ok (.exited 0, []), t)
    | some .false => (.ok (.exited 1, []), t)
    | some (.shell name) =>
      let (ended, t') := runShell directory name arguments output t
      (.ok ended, t')
    | none =>
      if FileTree.maxName < bytes.length && !bytes.contains Path.separator then (.error (.system .nameTooLong), t)
      else if bytes.contains Path.separator then
        match t.locate directory bytes with
        | .ok _ => (.error (.system .permissionDenied), t)
        | .error e => (.error e, t)
      else (.error (.system .notFound), t)

/-- The programs of a system with a shell: `sh`, `true` and `false`. -/
def standard? (program : String) : Option Startable :=
  match program with
  | "sh" => some (.shell (Bytes.ofString "sh"))
  | "true" => some .true
  | "false" => some .false
  | _ => none

/-- The programs of a system in which the shell also stands for the interpreter of the generator
scripts. -/
def withInterpreter? (interpreter : String) (program : String) : Option Startable :=
  if program = interpreter then some (.shell (Bytes.ofString "/bin/sh")) else standard? program

end ObjectTables.Shell
