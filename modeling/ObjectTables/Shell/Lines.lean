import ObjectTables.Shell.Machine
import ObjectTables.Shell.Reader.Grammar
import ObjectTables.Shell.Signal
/-!
Running scripts: one complete command is read and run after the other.

What is wrong with a line is found when it is read, so what stands before it has been done. How a command is
run is a parameter here.
-/
namespace ObjectTables.Shell.Lines

/-- The lines of a text with which it begins, up to an end that is given by what is left there. Where that
is not the start of a line, the line goes on to its end. -/
def linesBefore (text rest : Bytes) : Bytes :=
  let before := text.take (text.length - rest.length)
  if before.isEmpty || before.getLast? = some (code '\n') then before
  else before ++ (rest.take ((rest.takeWhile (· != code '\n')).length + 1))

/-- What a script is. -/
inductive Kind where
  /-- The file that the shell was started for. -/
  | first
  /-- A file that is run as a part of the shell. -/
  | part
  /-- A text that is no file. -/
  | text
deriving DecidableEq, Repr

/-- Notes the line up to which a script has been read. -/
def reach (k : Kind) (line : Nat) (m : Machine) : Machine :=
  { m with reached := line, reachedFirst := if k = .first then line else m.reachedFirst }

/-- Runs what is left of a script. The status is that of the last command, or the one given if there is
none. The lines of a file are shown before they are run if the shell is to do so. The fuel bounds the number
of commands. -/
def runFrom (command : Command → Act Nat) (k : Kind) : Nat → Nat → Source → Act Nat
  | 0, _, _ => throw (.killed Signal.kill)
  | fuel + 1, status, s => do
    let m ← get
    let start : Reading := { source := s, aliases := m.aliases, documents := m.documents }
    let (result, r) := Reader.complete.run.run start
    let shown := if k != .text && m.isOn .verbose then linesBefore s.script r.source.script else []
    set (reach k r.source.line { (m.write 2 shown).2 with documents := r.documents })
    match result with
    | .error mistake =>
      modify fun m => { m with line := m.reached }
      Act.failWith mistake.message
    | .ok .ended => return status
    | .ok (.commands none) => runFrom command k fuel status r.source
    | .ok (.commands (some c)) =>
      let status ← command c
      if (← get).skip != .nothing then return status
      runFrom command k fuel status r.source

/-- Runs a script. -/
def run (command : Command → Act Nat) (k : Kind) (fuel : Nat) (script : Bytes) : Act Nat := do
  let reached := (← get).reached
  Act.andAlways (runFrom command k fuel 0 (Source.ofScript script)) ({ · with reached := reached })

end ObjectTables.Shell.Lines
