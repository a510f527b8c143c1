import ObjectTables.Shell.Number
/-!
Commands that leave what they stand in.
-/
namespace ObjectTables.Shell.Builtin

/-- Ends the shell, with the status that an argument names or with that of the command before. -/
def exit (arguments : List Bytes) : Act Nat := do
  match arguments with
  | [] => pure ()
  | a :: _ =>
    let status ← Number.countOf a
    modify ({ · with keptStatus? := some status })
  throw .exit

/-- Leaves a function or a script. -/
def leaveCall (arguments : List Bytes) : Act Nat := do
  match arguments with
  | [] =>
    modify ({ · with skip := .call false })
    return (← get).status
  | a :: _ =>
    let status ← Number.countOf a
    modify ({ · with skip := .call true })
    return status

/-- Leaves some loops, or goes on with the last of them: as many as an argument says, but no more than
there are. -/
def leaveLoops (skip : Nat → Skip) (arguments : List Bytes) : Act Nat := do
  let n ← match arguments with
    | [] => pure 1
    | a :: _ => do
      let n ← Number.countOf a
      if n = 0 then Act.illegalNumber a
      pure n
  modify fun m => if m.loops = 0 then m else { m with skip := skip (min n m.loops) }
  return 0

end ObjectTables.Shell.Builtin
