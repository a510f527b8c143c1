import ObjectTables.FileTree.Access
/-!
Tools: programs that are given files to read and write to one file.

A tool is any function from a call to a change of the file tree. A process is one by way of
`Launch.tool`: its standard output goes to the call's output file, which is created first, and its
standard error is collected.
-/
namespace ObjectTables

/-- One call of a program. -/
structure Call where
  program : String
  arguments : List Bytes
  /-- The file that receives standard output. -/
  output : Path
deriving DecidableEq, Repr

/-- A call as messages show it. -/
def Call.display (c : Call) : String :=
  c.program ++ String.join (c.arguments.map fun a => " " ++ Path.display a)

/-- What a successful call leaves beside its output file. -/
structure Completion where
  output : Path
  stderr : Text
deriving DecidableEq, Repr

/-- What a tool does when it is called. -/
abbrev Tool := Call → Change Failure Completion

/-- How a process ended. -/
inductive Ending where
  | exited (status : UInt8)
  | killed
deriving DecidableEq, Repr

/-- Runs a program with its standard output in the file at a location. A program that cannot be
started is a failure; one that can answers how it ended and what it wrote to standard error. -/
abbrev Launch := (program : String) → (arguments : List Bytes) → (output : Location) →
  Change Cause (Ending × Bytes)

/-- The exit code that stands for the end by a signal. -/
def killedCode : Int := -1

/-- The tool that launches a process for each call. Its output file is created, or emptied, before. -/
def Launch.tool (launch : Launch) (directory : Location) : Tool := fun call => do
  let output ← (Change.look (·.writable directory call.output)).adapt (Failure.write call.output)
  modify (·.setFile output [])
  let (ending, stderr) ← (launch call.program call.arguments output).adapt (Failure.start call.program)
  let said := Bytes.decodeLossy stderr
  match ending with
  | .exited status =>
    if status = 0 then return ⟨call.output, said⟩
    throw (.tool call.program status.toNat said)
  | .killed => throw (.tool call.program killedCode said)

end ObjectTables
