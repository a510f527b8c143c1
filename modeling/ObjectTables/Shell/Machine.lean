import ObjectTables.FileTree.Access
import ObjectTables.Shell.Switch
/-!
The state of a shell while it runs, and the steps that change it.

A step may fail, leave the shell, or be killed; what it has done up to then stays done. A stream is what an
open descriptor stands for. Streams outlive the descriptors, because subshells share them.
-/
namespace ObjectTables.Shell

/-- What bytes go through. -/
inductive Channel where
  /-- Nothing comes from it and what goes to it is lost. -/
  | null
  /-- Nothing goes to it. -/
  | full
  | file (location : Location) (offset : Nat) (appends : Bool)
  | directory
  /-- One of the pipes, by its number. -/
  | pipe (number : Nat)
deriving DecidableEq, Repr

/-- An open channel, and what it was opened for. -/
structure Stream where
  channel : Channel
  reads : Bool := true
  writes : Bool := true
deriving DecidableEq, Repr

/-- Why bytes do not go through a stream. -/
inductive StreamError where
  | badDescriptor
  | isDirectory
  | noSpace
deriving DecidableEq, Repr

/-- The words for an error. -/
def StreamError.words : StreamError → String
  | badDescriptor => "Bad file descriptor"
  | isDirectory => "Is a directory"
  | noSpace => "No space left on device"

/-- A variable. -/
structure Variable where
  value? : Option Bytes := none
  isExported : Bool := false
  isReadOnly : Bool := false
deriving DecidableEq, Repr

/-- What a command of its own hides while it runs. -/
inductive Hidden where
  | variable (name : Bytes) (old? : Option Variable)
  | switches (old : List Switch)
deriving DecidableEq, Repr

/-- A command that was not waited for, when it has ended. -/
structure Job where
  process : Nat
  status : Nat
  /-- How many processes it had, the last one apart. -/
  others : Nat := 0
  /-- Whether its status has been asked for. -/
  isKnown : Bool := false
deriving DecidableEq, Repr

/-- What is passed over, after a command that leaves what it stands in. -/
inductive Skip where
  | nothing
  /-- The rest of so many loops. -/
  | loops (n : Nat)
  /-- The rest of this round of the loop around so many others, counted with itself. -/
  | round (n : Nat)
  /-- The rest of a function or a script; in a trap, the status may be meant for what follows it. -/
  | call (hasStatus : Bool)
deriving DecidableEq, Repr

/-- A shell. -/
structure Machine where
  tree : FileTree
  /-- Where relative paths start. -/
  directory : Location
  streams : Array Stream
  /-- What was written to each pipe and has not been read. -/
  pipes : Array Bytes
  /-- The stream of each open descriptor. -/
  descriptors : List (Nat × Nat)
  bindings : List (Bytes × Variable)
  functions : List (Bytes × Command) := []
  aliases : List (Bytes × Bytes) := []
  /-- The here documents of the commands read so far. -/
  documents : Array Document := #[]
  name : Bytes
  parameters : List Bytes
  status : Nat := 0
  /-- The status of the last command substitution in the command that runs. -/
  substituted : Nat := 0
  /-- The line that messages name. -/
  line : Nat := 0
  /-- The line up to which the script that runs has been read. -/
  reached : Nat := 1
  /-- The same of the file that the shell was started for, which subshells go back to. -/
  reachedFirst : Nat := 1
  /-- The command in whose name messages are given. -/
  speaker? : Option Bytes := none
  /-- How many functions are around the command that runs. -/
  calls : Nat := 0
  /-- How many loops are around the command that runs, within the function. -/
  loops : Nat := 0
  /-- What the commands that run hide, innermost first. -/
  hidden : List (List Hidden) := []
  switches : List Switch := []
  skip : Skip := .nothing
  /-- What is done at the end, which has number zero, and for signals. -/
  traps : List (Nat × Bytes) := []
  /-- The signals that wait for their traps. -/
  signals : List Nat := []
  /-- The signals that a subshell has sent to the shell itself. -/
  sent : List Nat := []
  /-- The status that an end of the shell has if it names none, while a trap is acted on. -/
  keptStatus? : Option Nat := none
  /-- The places for commands that are not waited for. -/
  jobs : List (Option Job) := []
  /-- The numbers of these places, from the command begun last on. -/
  recentJobs : List Nat := []
  lastBackground? : Option Nat := none
  process : Nat
  /-- The number that the next process gets. -/
  nextProcess : Nat
  /-- The next argument to be looked at for options, and how much of the one before has been. -/
  optionPlace : Nat × Option Nat := (1, none)
  /-- The permissions that new files do not get. -/
  mask : Nat := 18
  /-- The limits that have been set, by their letters, last first. -/
  limits : List (UInt8 × Bytes) := []
  /-- The programs whose places are remembered. -/
  remembered : List Bytes := []
  /-- Whether the output of the command that runs was lost. -/
  hasLostOutput : Bool := false
  /-- Whether the mark of a trace is being made. -/
  isTracing : Bool := false

/-- How a step is left before its end. -/
inductive Escape where
  /-- Something went wrong that ends the shell, unless it happened in a command that goes on without it. -/
  | failed
  /-- A command ends the shell by its status. -/
  | ended
  /-- The shell is asked to end. -/
  | exit
  /-- By a command that takes the place of the shell. -/
  | replaced
  /-- By a signal. -/
  | killed (signal : Nat)
deriving DecidableEq, Repr

/-- A step of a shell. -/
abbrev Act (α : Type) := ExceptT Escape (StateM Machine) α

namespace Machine

/-! ### Streams -/

/-- The stream of a descriptor, with its index. -/
def stream? (m : Machine) (descriptor : Nat) : Option (Nat × Stream) := do
  let index ← m.descriptors.lookup descriptor
  return (index, ← m.streams[index]?)

/-- Replaces what a stream goes through. -/
def setChannel (m : Machine) (index : Nat) (c : Channel) : Machine :=
  { m with streams := m.streams.modify index ({ · with channel := c }) }

/-- Adds a stream; the answer is its index. -/
def addStream (m : Machine) (s : Stream) : Nat × Machine :=
  (m.streams.size, { m with streams := m.streams.push s })

/-- Adds a pipe with a content. The answer is its number. -/
def addPipe (m : Machine) (content : Bytes) : Nat × Machine :=
  (m.pipes.size, { m with pipes := m.pipes.push content })

/-- What a pipe holds. -/
def pipeContent (m : Machine) (number : Nat) : Bytes := m.pipes.getD number []

/-- Makes a descriptor stand for a stream, or closes it. -/
def bind (m : Machine) (descriptor : Nat) (index? : Option Nat) : Machine :=
  let others := m.descriptors.filter (·.1 != descriptor)
  { m with descriptors := match index? with | some index => (descriptor, index) :: others | none => others }

/-- The content of a file, or nothing. -/
def fileContent (m : Machine) (l : Location) : Bytes :=
  match m.tree.get? l with
  | some (.file content) => content
  | _ => []

/-- A content in which some bytes are written at an offset; a gap before them is filled with zeros. -/
def overwritten (content : Bytes) (offset : Nat) (bytes : Bytes) : Bytes :=
  content.take offset ++ List.replicate (offset - content.length) 0 ++ bytes ++ content.drop (offset + bytes.length)

/-- Writes to a stream. What a removed file would get is lost. -/
def writeTo (m : Machine) (index : Nat) (s : Stream) (bytes : Bytes) : Option StreamError × Machine :=
  if bytes.isEmpty then (none, m)
  else if !s.writes then (some .badDescriptor, m)
  else match s.channel with
    | .null | .directory => (none, m)
    | .full => (some .noSpace, m)
    | .pipe n => (none, { m with pipes := m.pipes.modify n (· ++ bytes) })
    | .file l offset appends =>
      match m.tree.get? l with
      | some (.file content) =>
        let offset := if appends then content.length else offset
        (none, { (m.setChannel index (.file l (offset + bytes.length) appends)) with
          tree := m.tree.setFile l (overwritten content offset bytes) })
      | _ => (none, m.setChannel index (.file l (offset + bytes.length) appends))

/-- Writes to a descriptor. -/
def write (m : Machine) (descriptor : Nat) (bytes : Bytes) : Option StreamError × Machine :=
  match m.stream? descriptor with
  | some (index, s) => m.writeTo index s bytes
  | none => (some .badDescriptor, m)

/-- Writes to standard output on behalf of the command that runs. -/
def print (m : Machine) (bytes : Bytes) : Machine :=
  if bytes.isEmpty then m
  else match m.write 1 bytes with
    | (none, m) => m
    | (some _, m) => { m with hasLostOutput := true }

/-- The file that a descriptor stands for, if it does for one. -/
def fileOf? (m : Machine) (descriptor : Nat) : Option Location :=
  match m.stream? descriptor with
  | some (_, { channel := .file l _ _, .. }) => some l
  | _ => none

/-- What is left to read from a descriptor. -/
def input (m : Machine) (descriptor : Nat) : Except StreamError Bytes :=
  match m.stream? descriptor with
  | none => .error .badDescriptor
  | some (_, s) =>
    if !s.reads then .error .badDescriptor
    else match s.channel with
      | .file l offset _ => .ok ((m.fileContent l).drop offset)
      | .pipe n => .ok (m.pipeContent n)
      | .directory => .error .isDirectory
      | .null | .full => .ok []

/-- Goes past some bytes of a descriptor's input. -/
def consume (m : Machine) (descriptor n : Nat) : Machine :=
  match m.stream? descriptor with
  | some (index, { channel := .file l offset appends, .. }) => m.setChannel index (.file l (offset + n) appends)
  | some (_, { channel := .pipe number, .. }) => { m with pipes := m.pipes.modify number (·.drop n) }
  | _ => m

/-! ### Variables and parameters -/

/-- The value of a variable. -/
def valueOf? (m : Machine) (name : Bytes) : Option Bytes := (m.bindings.lookup name).bind (·.value?)

/-- Gives a name a variable, or takes it away. -/
def put (m : Machine) (name : Bytes) (v? : Option Variable) : Machine :=
  let others := m.bindings.filter (·.1 != name)
  { m with bindings := match v? with | some v => (name, v) :: others | none => others }

/-- Whether an option is on. -/
def isOn (m : Machine) (s : Switch) : Bool := m.switches.contains s

/-- The bytes that separate fields where nothing else is said. -/
def defaultSeparators : Bytes := Bytes.ofString " \t\n"

/-- The bytes that separate fields. -/
def separators (m : Machine) : Bytes := (m.valueOf? (Bytes.ofString "IFS")).getD defaultSeparators

/-- The number of the process of a shell that is no subshell. -/
def mainProcess : Nat := 4242

/-- Ends a command with a status. -/
def finish (m : Machine) (status : Nat) : Machine := { m with status := status }

/-- The bytes before a message: the name of the shell, the line, and who speaks. -/
def preamble (m : Machine) : Bytes :=
  let speaker := match m.speaker? with
    | some s => s ++ Bytes.ofString ": "
    | none => []
  m.name ++ Bytes.ofString ": " ++ digitsOf m.line ++ Bytes.ofString ": " ++ speaker

/-- Writes a message of the shell to standard error. -/
def complain (m : Machine) (message : Bytes) : Machine := (m.write 2 (m.preamble ++ message ++ [code '\n'])).2

end Machine

namespace Act

/-- Fails with a message. -/
def fail {α : Type} (message : Bytes) : Act α := do
  modify fun m => (m.complain message).finish 2
  throw .failed

/-- Fails with a message that is a string. -/
def failWith {α : Type} (message : String) : Act α := fail (Bytes.ofString message)

/-- Does something, and then another thing in any case. -/
def andAlways {α : Type} (a : Act α) (after : Machine → Machine) : Act α := fun m =>
  let (result, m') := a.run m
  (result, after m')

/-- Does something, and tells how it was left if it was left before its end. -/
def caught {α : Type} (a : Act α) : Act (Except Escape α) := fun m =>
  let (result, m') := a.run m
  (.ok result, m')

/-- Fails because some bytes are no number. -/
def illegalNumber {α : Type} (bytes : Bytes) : Act α := fail (Bytes.ofString "Illegal number: " ++ bytes)

/-- Fails because the parameter of an option is unknown. -/
def illegalOption {α : Type} (letter : UInt8) : Act α := fail (Bytes.ofString "Illegal option -" ++ [letter])

end Act

end ObjectTables.Shell
