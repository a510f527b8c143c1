import ObjectTables.Shell.System
import ObjectTables.Shell.Variable
/-!
What the name of a command stands for: a function, a command of the shell's own, or a program.

A name with a separator in it is the path of a program. Any other that is neither a function nor one of the
shell's own commands is looked for in the directories of the search path, and a program that has been found
there is remembered.
-/
namespace ObjectTables.Shell

/-- What the name of a command stands for. -/
inductive Callee where
  | function (body : Command)
  /-- A command of the shell's own. -/
  | own
  | program (p : Path)
  | unknown (why : String)

namespace Callee

/-- The commands of the shell's own that are not special. -/
def ordinaryCommands : List String :=
  ["[", "alias", "bg", "cd", "chdir", "command", "echo", "false", "fg", "getopts", "hash", "jobs", "kill", "printf",
    "pwd", "read", "test", "true", "type", "ulimit", "umask", "unalias", "wait"]

/-- Whether a name is that of a command of the shell's own. -/
def isOwn (name : Bytes) : Bool :=
  isSpecialCommand name || ordinaryCommands.any fun s => Bytes.ofString s == name

/-- Whether arguments of a command that are assignments are expanded as such. -/
def takesAssignments (name : Bytes) : Bool :=
  ["export", "local", "readonly"].any fun s => Bytes.ofString s == name

/-- Whether a name is that of a path. -/
def isPath (name : Bytes) : Bool := name.contains Path.separator

/-- The search path that a system has. -/
def standardPath : Bytes := Bytes.ofString "/usr/local/sbin:/usr/local/bin:/usr/sbin:/usr/bin:/sbin:/bin"

/-- The search path of a shell. -/
def searchPath (m : Machine) : Bytes := (m.valueOf? Variable.path).getD []

/-- The paths under which a program may be. -/
def candidates (path name : Bytes) : List Path :=
  (path.splitOn (code ':')).map fun directory =>
    if directory.isEmpty then name else directory ++ Path.separator :: name

/-- Why nothing can be called. -/
def notFound : String := "not found"

/-- The first of some paths that leads to a program. What else they lead to cannot be called. -/
def firstProgram (m : Machine) (why : String) : List Path → Except String Path
  | [] => .error why
  | p :: rest =>
    match m.find? p with
    | none => firstProgram m why rest
    | some (.outside .program) => .ok p
    | some _ => firstProgram m SystemError.permissionDenied.words rest

/-- Looks for a program. -/
def search (m : Machine) (path name : Bytes) : Except String Path :=
  let why := if FileTree.maxName < name.length then SystemError.nameTooLong.words else notFound
  firstProgram m why (candidates path name)

/-- What a name stands for where programs are looked for along some path. -/
def of (m : Machine) (hasFunctions : Bool) (path name : Bytes) : Callee :=
  if isPath name then program name
  else match if hasFunctions then m.functions.lookup name else none with
    | some body => function body
    | none =>
      if isOwn name then own
      else match search m path name with
        | .ok p => program p
        | .error why => unknown why

/-- Looks up what a name stands for. A program on the search path of the shell is remembered, unless there
is a function of the same name. -/
def resolve (hasFunctions : Bool) (path? : Option Bytes) (name : Bytes) : Act Callee := do
  let m ← get
  let callee := of m hasFunctions (path?.getD (searchPath m)) name
  match callee, path? with
  | program _, none =>
    let isNew := !m.remembered.contains name && (m.functions.lookup name).isNone
    if !isPath name && isNew then set { m with remembered := m.remembered ++ [name] }
  | _, _ => pure ()
  return callee

/-- The place of a name among so many, by its bytes: names are listed in the order of their places. -/
def place (places : Nat) (name : Bytes) : Nat :=
  ((name.head?.getD 0).toNat * 16 + name.foldl (fun n b => n + b.toNat) 0) % places

/-- Things with names in the order in which they are listed. -/
def inPlaces {α : Type} (places : Nat) (name : α → Bytes) (l : List α) : List α :=
  l.mergeSort fun a b => decide (place places (name a) ≤ place places (name b))

end Callee

end ObjectTables.Shell
