import ObjectTables.Command.Execution
import ObjectTables.Shell.Process
/-!
The command line program.

The files that a run can reach are read into a file tree, the command is performed on it with the shell
of this library as the interpreter of the generator scripts, and what it changed is written back.
-/
namespace ObjectTables.Disk

/-- The name of a location on the disk. -/
def fileName (l : Location) : String := "/" ++ "/".intercalate (l.map Path.display)

/-- The location of a path, whose steps are taken as they are written. -/
def location (directory : Location) (p : Path) : Location :=
  (Path.steps p).foldl
    (fun l s => if s = Path.here then l else if s = Path.above then l.dropLast else l ++ [s])
    (FileTree.start directory p)

/-- The node at a location of the disk, if anything is there. -/
partial def load (l : Location) : IO (Option Node) := do
  try
    let path ← IO.FS.realPath (fileName l)
    if ← path.isDir then
      let mut children := []
      for child in ← path.readDir do
        let name := Bytes.ofString child.fileName
        if let some node ← load (l ++ [name]) then children := (name, node) :: children
      return some (.directory children)
    return some (.file (← IO.FS.readBinFile path).toList)
  catch _ => return none

/-- A tree with all directories above a location. -/
def withDirectories (t : FileTree) (l : Location) : FileTree :=
  (List.range l.length).foldl
    (fun t n =>
      let above := l.take (n + 1)
      if (t.get? above).isSome then t else t.setDirectory above) t

/-- A tree with what the disk holds at a location. -/
def mount (t : FileTree) (l : Location) : IO FileTree := do
  match ← load l with
  | some node => return (withDirectories t l.dropLast).put l (some node)
  | none => return t

/-- The locations whose content a run with some sites can read or change. -/
def reach (directory : Location) (s : Sites) : List Location :=
  [s.root, s.libraryObjects "", s.fullHeader, s.scratchDirectory].map (location directory)

/-- Writes to the disk what differs between two trees. -/
def store (before after : FileTree) : IO Unit := do
  for (l, _) in (before.listing []).reverse do
    if (after.get? l).isNone then
      match before.get? l with
      | some .directory => IO.FS.removeDir (fileName l)
      | _ => IO.FS.removeFile (fileName l)
  for (l, e) in after.listing [] do
    if before.get? l != some e then
      match e with
      | .directory => IO.FS.createDir (fileName l)
      | .file content => IO.FS.writeBinFile (fileName l) ⟨content.toArray⟩

end ObjectTables.Disk

open ObjectTables in
/-- Runs the command with its arguments in the current directory. -/
def main (arguments : List String) : IO UInt32 := do
  let arguments := arguments.map Bytes.ofString
  let current ← IO.currentDir
  let directory := Path.steps (Path.ofString current.toString)
  let sites := match Command.Request.ofArguments arguments with
    | .ok (.run options) => some options.sites
    | _ => none
  let bare := Disk.withDirectories .empty directory
  let before ← match sites with
    | some s => (Disk.reach directory s).foldlM Disk.mount bare
    | none => pure bare
  let launch := Shell.launch directory (Shell.withInterpreter? "perl")
  let (outcome, after) := Command.perform directory launch arguments before
  Disk.store before after
  let stdout ← IO.getStdout
  stdout.putStr (String.join (outcome.stdout.map (·.text)))
  let stderr ← IO.getStderr
  stderr.putStr (String.ofList outcome.stderr)
  return UInt32.ofNat (outcome.exit % 256).toNat
