import ObjectTables.Shell.Builtin.Options
import ObjectTables.Shell.Job
import ObjectTables.Shell.Trap
import ObjectTables.Shell.Variable
/-!
Commands for processes: signals and their traps, jobs, and limits.
-/
namespace ObjectTables.Shell.Builtin

/-- The name of a signal. -/
def signalName (signal : Nat) : Bytes := (Signal.names[signal]?).getD []

/-- Lists the traps, or gives signals a new one, or takes theirs away. -/
def trap (arguments : List Bytes) : Act Nat := do
  match ← Options.operands arguments with
  | [] =>
    modify fun m =>
      let traps := m.traps.mergeSort fun a b => decide (a.1 ≤ b.1)
      m.print <| traps.flatMap fun (signal, action) =>
        Bytes.ofString "trap -- " ++ Variable.inSingleQuotes action ++ code ' ' :: signalName signal ++ [code '\n']
    return 0
  | first :: rest =>
    let isNumber := !first.isEmpty && first.all isDigit && (Signal.ofBytes? 0 first).isSome
    let (action?, signals) :=
      if rest.isEmpty || isNumber then (none, first :: rest)
      else (if first = [code '-'] then none else some first, rest)
    for name in signals do
      match Signal.ofBytes? 0 name with
      | some signal => modify (Trap.put signal action?)
      | none =>
        modify fun m => (m.write 2 (Bytes.ofString "trap: " ++ name ++ Bytes.ofString ": bad trap\n")).2
        return 1
    return 0

/-- How `kill` is used. -/
def killUsage : String :=
  "Usage: kill [-s sigspec | -signum | -sigspec] [pid | job]... or\nkill -l [exitstatus]"

/-- Names the signal of a number or of a status, or all signals. -/
def listSignals (arguments : List Bytes) : Act Nat := do
  match arguments with
  | [] =>
    modify (·.print (Bytes.ofString "0\n" ++ (Signal.names.drop 1).flatMap (· ++ [code '\n'])))
    return 0
  | a :: _ =>
    let n ← Number.countOf a
    let signal := if 128 < n then n - 128 else n
    if 0 < signal && signal < Signal.names.length then
      modify (·.print (signalName signal ++ [code '\n']))
      return 0
    Act.fail (Bytes.ofString "invalid signal number or exit status: " ++ a)

/-- Sends a signal to a process; the answer tells whether there is one. -/
def sendSignal (signal : Nat) (target : Bytes) : Act Bool := do
  let m ← get
  if target.head? = some (code '%') then
    let (_, j) ← Job.find (some target)
    return !j.isKnown
  let isGroup := target.head? = some (code '-')
  let process ← Number.countOf (if isGroup then target.drop 1 else target)
  if isGroup then return false
  if process = m.process then
    Trap.receive signal
    return true
  if process = Machine.mainProcess then
    set { m with sent := m.sent ++ [signal] }
    return true
  return (Job.recent m).any fun (_, j) => j.process = process && !j.isKnown

/-- The signal and what else the options of `kill` ask for: whether signals are to be listed. -/
def killOptions (arguments : List Bytes) : Act (Option Nat × Bool × List Bytes) := do
  match arguments with
  | (0x2D :: name) :: rest =>
    match Signal.ofBytes? 1 name with
    | some signal => return (some signal, false, rest)
    | none =>
      let (options, rest) ← Options.split "ls:" arguments
      let mut signal? : Option Nat := none
      for (letter, value) in options do
        if letter = code 's' then
          match Signal.ofBytes? 1 value with
          | some signal => signal? := some signal
          | none => Act.fail (Bytes.ofString "invalid signal number or name: " ++ value)
      return (signal?, options.any (·.1 = code 'l'), rest)
  | _ => return (none, false, arguments)

/-- Sends a signal to processes, or lists signals. -/
def kill (arguments : List Bytes) : Act Nat := do
  if arguments.isEmpty then Act.failWith killUsage
  let (signal?, lists, rest) ← killOptions arguments
  if lists then
    if signal?.isSome && !rest.isEmpty then Act.failWith killUsage
    return (← listSignals rest)
  if rest.isEmpty then Act.failWith killUsage
  let mut status := 0
  for target in rest do
    if !(← sendSignal (signal?.getD Signal.terminate) target) then
      modify (·.complain (Bytes.ofString "No such process\n"))
      status := 1
  return status

/-! ### Jobs -/

/-- The status of a process that is no job. -/
def noJobStatus : Nat := 127

/-- Asks for the status of jobs, or notes that nobody needs those of any. -/
def wait (arguments : List Bytes) : Act Nat := do
  match ← Options.operands arguments with
  | [] =>
    modify fun m => m.recentJobs.foldl (fun m place => Job.know place m) m
    return 0
  | names =>
    let mut status := noJobStatus
    for name in names do
      let found? ←
        if name.head? = some (code '%') then some <$> Job.find (some name)
        else do
          let process ← Number.countOf name
          pure ((Job.recent (← get)).find? fun (_, j) => j.process == process)
      match found? with
      | some (place, j) =>
        modify (Job.know place)
        status := j.status
      | none => pure ()
    return status

/-- Lists jobs. One that is listed has been asked for, and is forgotten. -/
def jobs (arguments : List Bytes) : Act Nat := do
  let (options, names) ← Options.split "lp" arguments
  let listed ← if names.isEmpty then pure (Job.recent (← get)) else names.mapM fun name => Job.find (some name)
  let letter? := options.getLast?.map (·.1)
  let mut output : Bytes := []
  for (place, j) in listed do
    if letter? = some (code 'p') then output := output ++ digitsOf j.process ++ [code '\n']
    else
      output := output ++ Job.line (← get) (letter? = some (code 'l')) place j
      modify (Job.release place)
  modify (·.print output)
  return 0

/-- Refuses to go on with a job in another way, which needs a terminal. -/
def resume (arguments : List Bytes) : Act Nat := do
  let names ← Options.operands arguments
  let _ ← Job.find names.head?
  let name := (names.head?).getD (Bytes.ofString "(null)")
  Act.fail (Bytes.ofString "job " ++ name ++ Bytes.ofString " not created under job control")

/-- Writes how much time the shell and its commands have taken, which is next to nothing. -/
def times : Act Nat := do
  let line := "0m0.000000s 0m0.000000s\n"
  modify (·.print (Bytes.ofString (line ++ line)))
  return 0

/-- The limits on the resources of a process by their letters. -/
def limitLetters : Bytes := Bytes.ofString "tfdscmlpnvwr"

/-- Writes or sets a limit. -/
def ulimit (arguments : List Bytes) : Act Nat := do
  let (options, rest) ← Options.split "HSatfdscmlpnvwr" arguments
  let letter := ((options.filter fun (letter, _) => limitLetters.contains letter).getLast?.map (·.1)).getD (code 'f')
  let unlimited := Bytes.ofString "unlimited"
  let m ← get
  match rest with
  | [] => set (m.print ((m.limits.lookup letter).getD unlimited ++ [code '\n']))
  | [limit] =>
    if limit != unlimited && !limit.all isDigit then Act.failWith "bad number"
    set { m with limits := (letter, limit) :: m.limits }
  | _ => Act.failWith "too many arguments"
  return 0

end ObjectTables.Shell.Builtin
