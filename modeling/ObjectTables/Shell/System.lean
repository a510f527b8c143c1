import ObjectTables.Shell.Machine
/-!
What the system has outside of the tree of files: devices, programs, and the directories that they are in.
-/
namespace ObjectTables.Shell

/-- Something outside of the tree of files. -/
inductive Outside where
  /-- The device that holds nothing. -/
  | null
  /-- The device that takes nothing. -/
  | full
  /-- What a descriptor stands for. -/
  | descriptor (n : Nat)
  | program
  | directory
deriving DecidableEq, Repr

namespace Outside

/-- The directories. -/
def directories : List String :=
  ["bin", "boot", "dev", "etc", "home", "lib", "media", "mnt", "opt", "proc", "root", "run", "sbin", "srv", "sys", "tmp",
    "usr", "usr/bin", "usr/lib", "usr/local", "usr/local/bin", "usr/sbin", "usr/share", "var", "var/tmp"]

/-- The programs that are looked for by their names. -/
def programs : List String := ["[", "cat", "echo", "false", "printf", "pwd", "sh", "test", "true"]

/-- Whether some bytes are the name of a program. -/
def isProgram (name : Bytes) : Bool := programs.any fun p => Bytes.ofString p == name

/-- What there is under an absolute path. -/
def of? (p : Path) : Option Outside :=
  if !Path.isAbsolute p then none
  else
    let steps := (Path.steps p).filter (· != Path.here)
    let path := [Path.separator].intercalate steps
    let is (s : String) : Bool := path == Bytes.ofString s
    let name := steps.getLast?.getD []
    let above := [Path.separator].intercalate steps.dropLast
    let isIn (s : String) : Bool := above == Bytes.ofString s
    if steps.isEmpty || directories.any is then some directory
    else if is "dev/null" then some null
    else if is "dev/full" then some full
    else if is "dev/stdin" then some (descriptor 0)
    else if is "dev/stdout" then some (descriptor 1)
    else if is "dev/stderr" then some (descriptor 2)
    else if (isIn "dev/fd" || isIn "proc/self/fd") && !name.isEmpty && name.all isDigit then
      some (descriptor (decimal name))
    else if (isIn "bin" || isIn "usr/bin") && isProgram name then some program
    else none

end Outside

/-- What stands under a path. -/
inductive Found where
  | entry (location : Location) (e : Entry)
  | outside (o : Outside)
deriving DecidableEq, Repr

/-- What a path leads to. -/
def Machine.find? (m : Machine) (p : Path) : Option Found :=
  match m.tree.locate m.directory p with
  | .ok l => (m.tree.get? l).map (Found.entry l)
  | .error _ =>
    match Outside.of? p with
    | some (.descriptor n) =>
      match m.stream? n with
      | some (_, { channel := .file l _ _, .. }) => (m.tree.get? l).map (Found.entry l)
      | some (_, { channel := .null, .. }) => some (.outside .null)
      | some (_, { channel := .full, .. }) => some (.outside .full)
      | some (_, { channel := .directory, .. }) => some (.outside .directory)
      | some (_, { channel := .pipe _, .. }) => some (.outside (.descriptor n))
      | none => none
    | some o => some (.outside o)
    | none => none

end ObjectTables.Shell
