import ObjectTables.Shell.Machine
import ObjectTables.Shell.Signal
/-!
Traps: what a shell does when signals reach it, and at its end.

A signal with a trap waits until the command that runs has ended. How the text of a trap is run is a parameter
here.
-/
namespace ObjectTables.Shell.Trap

/-- What is done for a signal, if it has a trap. Nothing is done for one that is ignored. -/
def action? (m : Machine) (signal : Nat) : Option Bytes := m.traps.lookup signal

/-- Gives a signal a trap, or takes it away. -/
def put (signal : Nat) (action? : Option Bytes) (m : Machine) : Machine :=
  let others := m.traps.filter (·.1 != signal)
  { m with traps := match action? with | some action => (signal, action) :: others | none => others }

/-- The traps of a subshell: those for signals that are ignored. -/
def inherited (traps : List (Nat × Bytes)) : List (Nat × Bytes) := traps.filter (·.2.isEmpty)

/-- What becomes of a signal that reaches the shell. -/
def receive (signal : Nat) : Act Unit := do
  let m ← get
  match if signal = Signal.kill then none else action? m signal with
  | some [] => return
  | some _ => if !m.signals.contains signal then set { m with signals := signal :: m.signals }
  | none => if signal != 0 && !Signal.harmless.contains signal then throw (.killed signal)

/-- Acts on signals one after the other, as long as no trap leaves what runs. The status is not that of a
trap, unless it says so. -/
def actOn (text : Bytes → Act Nat) (status : Nat) : List Nat → Act Unit
  | [] => return
  | signal :: rest => do
    let m ← get
    if m.skip != .nothing then set { m with signals := (signal :: rest) ++ m.signals }
    else
      match action? m signal with
      | none | some [] => pure ()
      | some action =>
        let _ ← text action
        modify fun m => if m.skip = .call true then m else m.finish status
      actOn text status rest

/-- Acts on the signals that wait, lowest first. -/
def act (text : Bytes → Act Nat) : Act Unit := do
  let m ← get
  if m.signals.isEmpty then return
  let status := m.keptStatus?.getD m.status
  set { m with keptStatus? := some status, signals := [] }
  actOn text status (m.signals.mergeSort fun a b => decide (a ≤ b))
  modify ({ · with keptStatus? := m.keptStatus? })

/-- Takes the status that was kept for the end, if one was. -/
def takeKept (m : Machine) : Machine := { m with status := m.keptStatus?.getD m.status, keptStatus? := none }

/-- Runs a shell to its end, with the trap for that. The answer is the signal that has killed it, if one
has. -/
def toEnd {α : Type} (text : Bytes → Act Nat) (body : Act α) : Act (Option Nat) := do
  match ← Act.caught body with
  | .error (.killed signal) => return some signal
  | .error .replaced => return none
  | .error .exit => modify takeKept
  | _ => pure ()
  let m ← get
  match action? m 0 with
  | none => return none
  | some action =>
    set { put 0 none m with keptStatus? := some m.status, skip := .nothing, loops := 0 }
    match ← Act.caught (text action) with
    | .error (.killed signal) => return some signal
    | .ok _ | .error .exit => modify takeKept
    | _ => pure ()
    return none

end ObjectTables.Shell.Trap
