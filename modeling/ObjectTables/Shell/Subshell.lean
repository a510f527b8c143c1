import ObjectTables.Shell.Job
import ObjectTables.Shell.Trap
/-!
Subshells: shells that begin with all that another one has, and leave it only what they did to files.

A part that runs as a subshell runs to its end before anything else goes on. So what one command of a pipeline
writes is all there when the next one reads it.
-/
namespace ObjectTables.Shell.Subshell

/-- A shell at the start of a subshell. Traps and jobs stay behind, and so does the text that is read. -/
def enter (m : Machine) : Machine :=
  { m with
    process := m.nextProcess, nextProcess := m.nextProcess + 1, traps := Trap.inherited m.traps, signals := [], sent := []
    jobs := [], recentJobs := [], reached := m.reachedFirst }

/-- The shell after a subshell. -/
def leave (before after : Machine) : Machine :=
  { before with
    tree := after.tree, streams := after.streams, pipes := after.pipes, nextProcess := after.nextProcess
    sent := before.sent ++ after.sent }

/-- Lets the signals reach the shell that a subshell has sent it. -/
def receiveSent : Act Unit := do
  let m ← get
  if m.process = Machine.mainProcess then
    set { m with sent := [] }
    m.sent.forM Trap.receive

/-- The status of a process that was killed by a signal. -/
def killedStatus (signal : Nat) : Nat := 128 + signal

/-- How a subshell ended. -/
structure Ended where
  status : Nat
  signal? : Option Nat

/-- Runs a part as a subshell. -/
def run {α : Type} (text : Bytes → Act Nat) (part : Act α) : Act Ended := do
  let before ← get
  set (enter before)
  let signal? ← Trap.toEnd text part
  let after ← get
  set (leave before after)
  Trap.receive Signal.child
  receiveSent
  return ⟨(signal?.map killedStatus).getD (after.status % 256), signal?⟩

/-- Says that a process was killed, unless that is no surprise. -/
def remark (signal : Nat) : Act Unit := do
  match if Signal.quiet.contains signal then none else Signal.description? signal with
  | some words => modify fun m => (m.write 2 (Bytes.ofString (words ++ "\n"))).2
  | none => pure ()

/-- Runs a part as a subshell that the shell waits for. The answer is its status. -/
def await {α : Type} (text : Bytes → Act Nat) (part : Act α) : Act Nat := do
  modify fun m => (Job.takePlace m).2
  let ended ← run text part
  match ended.signal? with
  | some signal => remark signal
  | none => pure ()
  return ended.status

/-- The output of a part that runs as a subshell. -/
def outputOf {α : Type} (text : Bytes → Act Nat) (part : Act α) : Act Bytes := do
  let (pipe, m) := (← get).addPipe []
  let (index, m) := m.addStream { channel := .pipe pipe, reads := false }
  set m
  let status ← await text do
    modify (·.bind 1 (some index))
    part
  let m ← get
  set { m with substituted := status, pipes := m.pipes.setIfInBounds pipe [] }
  return m.pipeContent pipe

/-- Makes standard input yield nothing. -/
def detach : Act Unit := modify fun m =>
  let (index, m) := m.addStream { channel := .null, writes := false }
  m.bind 0 (some index)

/-- Runs a part as a subshell that is not waited for. -/
def background {α : Type} (text : Bytes → Act Nat) (part : Act α) : Act Unit := do
  let process := (← get).nextProcess
  let ended ← run text do
    detach
    part
  modify (Job.add { process := process, status := ended.status })

/-- Runs the commands of a pipeline, each as a subshell, after one whose output is read from a stream. -/
def pipeline (text : Bytes → Act Nat) (command : Command → Act Nat) (isDetached : Bool) (input? : Option Nat) :
    List Command → Act Ended
  | [] => return ⟨0, none⟩
  | c :: rest => do
    let pipe? ← if rest.isEmpty then pure none else do
      let (pipe, m) := (← get).addPipe []
      let (reading, m) := m.addStream { channel := .pipe pipe, writes := false }
      let (writing, m) := m.addStream { channel := .pipe pipe, reads := false }
      set m
      pure (some (reading, writing))
    let ended ← run text do
      match input? with
      | some index => modify (·.bind 0 (some index))
      | none => if isDetached then detach
      match pipe? with
      | some (_, writing) => modify (·.bind 1 (some writing))
      | none => pure ()
      command c
    if rest.isEmpty then return ended
    pipeline text command isDetached (pipe?.map (·.1)) rest

/-- Runs a pipeline that the shell waits for. -/
def awaitPipeline (text : Bytes → Act Nat) (command : Command → Act Nat) (parts : List Command) : Act Nat := do
  modify fun m => (Job.takePlace m).2
  let ended ← pipeline text command false none parts
  match ended.signal? with
  | some signal => remark signal
  | none => pure ()
  return ended.status

/-- Runs a pipeline that is not waited for. -/
def backgroundPipeline (text : Bytes → Act Nat) (command : Command → Act Nat) (parts : List Command) : Act Unit := do
  let ended ← pipeline text command true none parts
  modify fun m => Job.add { process := m.nextProcess - 1, status := ended.status, others := parts.length - 1 } m

end ObjectTables.Shell.Subshell
