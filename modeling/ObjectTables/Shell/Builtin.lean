import ObjectTables.Shell.Builtin.Directory
import ObjectTables.Shell.Builtin.Flow
import ObjectTables.Shell.Builtin.Names
import ObjectTables.Shell.Builtin.Output
import ObjectTables.Shell.Builtin.Parameters
import ObjectTables.Shell.Builtin.Processes
import ObjectTables.Shell.Builtin.Variables
/-!
The commands of the shell's own by their names, those apart that run others.
-/
namespace ObjectTables.Shell.Builtin

/-- What a command does with its arguments. -/
def run (name : String) (arguments : List Bytes) : Act Nat :=
  match name with
  | "[" => test true arguments
  | "alias" => makeAliases arguments
  | "bg" | "fg" => resume arguments
  | "break" => leaveLoops .loops arguments
  | "cd" | "chdir" => cd arguments
  | "command" => describeOne arguments
  | "continue" => leaveLoops .round arguments
  | "echo" => echo arguments
  | "exit" => exit arguments
  | "export" => mark (Bytes.ofString name) true arguments
  | "false" => return 1
  | "getopts" => getopts arguments
  | "hash" => hash arguments
  | "jobs" => jobs arguments
  | "kill" => kill arguments
  | "local" => makeLocal arguments
  | "printf" => printf arguments
  | "pwd" => pwd arguments
  | "read" => read arguments
  | "readonly" => mark (Bytes.ofString name) false arguments
  | "return" => leaveCall arguments
  | "set" => setAll arguments
  | "shift" => shift arguments
  | "test" => test false arguments
  | "times" => times
  | "trap" => trap arguments
  | "type" => describeAll true none arguments
  | "ulimit" => ulimit arguments
  | "umask" => umask arguments
  | "unalias" => forgetAliases arguments
  | "unset" => unset arguments
  | "wait" => wait arguments
  | _ => return 0

end ObjectTables.Shell.Builtin
