import ObjectTables.FileTree.Basic
import ObjectTables.Failure
/-!
Where a path leads.

A path is walked step by step from the root or from the directory it is relative to. Each step needs a
directory to start from; `..` leads to the directory above, whatever was walked before. A path that
leads to nothing may still name a place where an entry can be made.
-/
namespace ObjectTables.FileTree

/-- The longest name of an entry. -/
def maxName : Nat := 255

/-- The longest path. -/
def maxPath : Nat := 4095

/-- Walking on is possible from a directory only. -/
def enter (t : FileTree) (l : Location) : Except Cause Unit :=
  match t.get? l with
  | some .directory => .ok ()
  | some (.file _) => .error (.system .notDirectory)
  | none => .error (.system .notFound)

/-- Where one step leads from a directory. -/
def step (t : FileTree) (l : Location) (s : Name) : Except Cause Location := do
  t.enter l
  if s = Path.here then return l
  if s = Path.above then return l.dropLast
  if maxName < s.length then throw (.system .nameTooLong)
  if (t.get? (l ++ [s])).isNone then throw (.system .notFound)
  return l ++ [s]

/-- Where some steps lead from a directory. -/
def walk (t : FileTree) (l : Location) (steps : List Name) : Except Cause Location := steps.foldlM t.step l

/-- Where a path starts: at the root, or at the directory it is relative to. -/
def start (directory : Location) (p : Path) : Location := if Path.isAbsolute p then [] else directory

/-- A path that can be walked is neither empty nor too long and holds no NUL. -/
def checkPath (p : Path) : Except Cause Unit := do
  if p.contains 0 then throw .nulInPath
  if p.isEmpty then throw (.system .notFound)
  if maxPath < p.length then throw (.system .nameTooLong)

/-- The location that a path leads to. A path that ends in a separator leads to directories only. -/
def locate (t : FileTree) (directory : Location) (p : Path) : Except Cause Location := do
  checkPath p
  let l ← t.walk (start directory p) (Path.steps p)
  if Path.isSlashed p then t.enter l
  return l

/-- What the last step of a path names. -/
inductive Place where
  /-- The root, which is no entry of a directory. -/
  | root
  /-- A directory, by the step that stays in it. -/
  | here
  /-- A directory, by the step that leads up to it. -/
  | above
  /-- An entry of a directory, there or not; `slashed` if a separator follows. -/
  | entry (directory : Location) (name : Name) (slashed : Bool)
deriving DecidableEq, Repr

/-- The place that the last step of a path names. The steps before it have to lead to a directory. -/
def place (t : FileTree) (directory : Location) (p : Path) : Except Cause Place := do
  checkPath p
  match (Path.steps p).getLast? with
  | none => return .root
  | some name =>
    let l ← t.walk (start directory p) (Path.steps p).dropLast
    t.enter l
    if name = Path.here then return .here
    if name = Path.above then return .above
    return .entry l name (Path.isSlashed p)

end ObjectTables.FileTree
