import ObjectTables.FileTree.Route
/-!
Reading and changing files by their paths.

Each operation takes the directory that relative paths start from. A single operation either succeeds
or changes nothing; the operations made of several, which are of type `Change`, may fail when a part
of their work is done, and then leave that part.
-/
namespace ObjectTables

/-- A computation that changes the file tree and may fail halfway. -/
abbrev Change (ε α : Type) := ExceptT ε (StateM FileTree) α

namespace Change

variable {ε ε' α : Type}

/-- A look at the tree. -/
def look (f : FileTree → Except ε α) : Change ε α := do
  match f (← get) with
  | .ok a => return a
  | .error e => throw e

/-- A single change, which is made as a whole or not at all. -/
def make (f : FileTree → Except ε FileTree) : Change ε Unit := do
  match f (← get) with
  | .ok t => set t
  | .error e => throw e

/-- A change whose failures are told in other terms. -/
def adapt (f : ε → ε') (c : Change ε α) : Change ε' α := fun t =>
  match c.run t with
  | (.ok a, t') => (.ok a, t')
  | (.error e, t') => (.error (f e), t')

end Change

namespace FileTree

/-- Whether a path leads anywhere. -/
def reaches (t : FileTree) (directory : Location) (p : Path) : Bool :=
  match t.locate directory p with
  | .ok _ => true
  | .error _ => false

/-- Whether a path leads to a directory. -/
def reachesDirectory (t : FileTree) (directory : Location) (p : Path) : Bool :=
  match t.locate directory p with
  | .ok l => t.isDirectory l
  | .error _ => false

/-- The content of a file. -/
def read (t : FileTree) (directory : Location) (p : Path) : Except Cause Bytes := do
  let l ← t.locate directory p
  match t.get? l with
  | some (.file content) => return content
  | some .directory => throw (.system .isDirectory)
  | none => throw (.system .notFound)

/-- The content of a file that has to be text. -/
def readText (t : FileTree) (directory : Location) (p : Path) : Except Cause Text := do
  match Bytes.decode? (← t.read directory p) with
  | some text => return text
  | none => throw .notText

/-- The location of the file that a path names for writing. The file need not be there, but its
directory must. -/
def writable (t : FileTree) (directory : Location) (p : Path) : Except Cause Location := do
  match ← t.place directory p with
  | .entry l name false =>
    if maxName < name.length then throw (.system .nameTooLong)
    if t.isDirectory (l ++ [name]) then throw (.system .isDirectory)
    return l ++ [name]
  | _ => throw (.system .isDirectory)

/-- Replaces the content of a file, or creates it. -/
def write (t : FileTree) (directory : Location) (p : Path) (content : Bytes) : Except Cause FileTree := do
  return t.setFile (← t.writable directory p) content

/-- Creates a directory where nothing is yet. -/
def createDirectory (t : FileTree) (directory : Location) (p : Path) : Except Cause FileTree := do
  match ← t.place directory p with
  | .entry l name _ =>
    if maxName < name.length then throw (.system .nameTooLong)
    if (t.get? (l ++ [name])).isSome then throw (.system .alreadyExists)
    return t.setDirectory (l ++ [name])
  | _ => throw (.system .alreadyExists)

/-- Removes an empty directory. -/
def removeDirectory (t : FileTree) (directory : Location) (p : Path) : Except Cause FileTree := do
  match ← t.place directory p with
  | .root => throw (.system .busy)
  | .here => throw (.system .invalidArgument)
  | .above => throw (.system .notEmpty)
  | .entry l name _ =>
    if maxName < name.length then throw (.system .nameTooLong)
    match t.node? (l ++ [name]) with
    | none => throw (.system .notFound)
    | some (.file _) => throw (.system .notDirectory)
    | some (.directory []) => return t.erase (l ++ [name])
    | some (.directory _) => throw (.system .notEmpty)

/-- Removes a file. -/
def removeFile (t : FileTree) (directory : Location) (p : Path) : Except Cause FileTree := do
  match ← t.place directory p with
  | .entry l name slashed =>
    match t.get? (l ++ [name]) with
    | none => throw (.system .notFound)
    | some .directory => throw (.system .isDirectory)
    | some (.file _) =>
      if slashed then throw (.system .notDirectory)
      return t.erase (l ++ [name])
  | _ => throw (.system .isDirectory)

/-- Removes a directory with everything in it: first what it holds, then the directory itself. If the
path no longer leads there once its content is gone, the second part has nothing to do. -/
def removeAll (directory : Location) (p : Path) : Change Cause Unit := do
  Change.make fun t => do
    let l ← t.locate directory p
    t.enter l
    return t.clear l
  Change.make fun t =>
    match t.removeDirectory directory p with
    | .error (.system .notFound) => .ok t
    | result => result

/-- Creates the first of some directories, where the rest are the paths above it: those that are
missing are created before it. -/
def createFrom (directory : Location) : List Path → Change Cause Unit
  | [] => return
  | p :: above => do
    match (← get).createDirectory directory p with
    | .ok t => set t
    | .error (.system .notFound) =>
      createFrom directory above
      Change.make fun t =>
        match t.createDirectory directory p with
        | .ok t' => .ok t'
        | .error e => if t.reachesDirectory directory p then .ok t else .error e
    | .error e =>
      if (← get).reachesDirectory directory p then return
      throw e

/-- Creates a directory and those above it that are missing. A directory that is there already is
fine. -/
def createAll (directory : Location) (p : Path) : Change Cause Unit :=
  if p.isEmpty then return else createFrom directory (p :: Path.ancestors p)

end FileTree

end ObjectTables
