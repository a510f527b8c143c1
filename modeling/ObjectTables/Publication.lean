import ObjectTables.FileTree.Access
import ObjectTables.Header.Alias
import ObjectTables.Text.Published
/-!
The file operations of a run: reading and writing texts, publishing a text in its published form,
copying a file as it is, and appending the aliases to a header.
-/
namespace ObjectTables.Publication

/-- Reads a file that has to be text. -/
def readText (directory : Location) (p : Path) : Change Failure Text :=
  (Change.look (·.readText directory p)).adapt (Failure.read p)

/-- Writes a text to a file. -/
def writeText (directory : Location) (p : Path) (t : Text) : Change Failure Unit :=
  (Change.make (·.write directory p t.encode)).adapt (Failure.write p)

/-- Creates the directory of a path, with those above it, unless it is there. -/
def ensureParent (directory : Location) (p : Path) : Change Failure Unit := do
  match Path.parent? p with
  | none => return
  | some parent =>
    if parent.isEmpty || (← get).reaches directory parent then return
    (FileTree.createAll directory parent).adapt (Failure.createDirectory parent)

/-- Publishes a text: reads it from one file and writes its published form to another, whose directory
is created if need be. -/
def publish (directory : Location) (source target : Path) : Change Failure Unit := do
  let text ← readText directory source
  ensureParent directory target
  writeText directory target text.published

/-- What there is to copy from one path to another. Only a regular file can be copied. The target is
emptied before the source is read, so there is nothing to copy from a file to itself. -/
def copied (t : FileTree) (directory : Location) (source target : Path) : Except Cause Bytes := do
  let l ← t.locate directory source
  match t.get? l with
  | some (.file content) => return if (t.locate directory target).toOption = some l then [] else content
  | _ => throw .notRegular

/-- Copies a file byte by byte to another path, whose directory is created if need be. -/
def copy (directory : Location) (source target : Path) : Change Failure Unit := do
  ensureParent directory target
  (Change.make fun t => do
    let content ← copied t directory source target
    t.write directory target content).adapt (Failure.copy source target)

/-- Appends the aliases of a compat header to a header, in place. -/
def appendAliases (directory : Location) (header compat : Path) : Change Failure Unit := do
  let headerText ← readText directory header
  let compatText ← readText directory compat
  writeText directory header (Header.appendAliases headerText compatText)

end ObjectTables.Publication
