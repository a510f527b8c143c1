import ObjectTables.Shell.Machine
/-!
Jobs: commands that were not waited for. All of them have ended by the time that anybody asks.

A job has a place, whose number names it. A command that begins takes the first place that is free, and one whose
job has been asked for is free.
-/
namespace ObjectTables.Shell.Job

/-- Whether a new command can take a place. -/
def isFree : Option Job → Bool
  | none => true
  | some j => j.isKnown

/-- The shell without the job at a place. -/
def release (place : Nat) (m : Machine) : Machine :=
  { m with jobs := m.jobs.set place none, recentJobs := m.recentJobs.filter (· != place) }

/-- Frees the place that the next command takes. -/
def takePlace (m : Machine) : Nat × Machine :=
  let place := m.jobs.findIdx isFree
  (place, release place m)

/-- Adds a job. -/
def add (j : Job) (m : Machine) : Machine :=
  let (place, m) := takePlace m
  let jobs := if place < m.jobs.length then m.jobs.set place (some j) else m.jobs ++ [some j]
  { m with jobs := jobs, recentJobs := place :: m.recentJobs, lastBackground? := some j.process }

/-- The jobs with their places, from the one begun last on. -/
def recent (m : Machine) : List (Nat × Job) :=
  m.recentJobs.filterMap fun place => (m.jobs.getD place none).map (place, ·)

/-- Notes that the status of a job has been asked for. -/
def know (place : Nat) (m : Machine) : Machine :=
  { m with jobs := m.jobs.modify place fun j? => j?.map ({ · with isKnown := true }) }

/-- The job that a name stands for, with its place. -/
def find (name? : Option Bytes) : Act (Nat × Job) := do
  let jobs := recent (← get)
  let refuse {α : Type} (name : Bytes) : Act α := Act.fail (Bytes.ofString "No such job: " ++ name)
  let current : Act (Nat × Job) := do
    match jobs with
    | [] => Act.failWith "No current job"
    | j :: _ => return j
  match name? with
  | none => current
  | some name =>
    match name with
    | [0x25] | [0x25, 0x25] | [0x25, 0x2B] => current
    | [0x25, 0x2D] =>
      match jobs with
      | _ :: j :: _ => return j
      | _ => Act.failWith "No previous job"
    | 0x25 :: digits =>
      if !digits.isEmpty && digits.all isDigit then
        match jobs.find? fun (place, _) => place + 1 == decimal digits with
        | some j => return j
        | none => refuse name
      else refuse name
    | _ => refuse name

/-- The words for how a job has ended. -/
def stateWords (j : Job) : String := if j.status = 0 then "Done" else s!"Done({j.status})"

/-- The line about a job, with the numbers of its processes if they are asked for. -/
def line (m : Machine) (showsProcess : Bool) (place : Nat) (j : Job) : Bytes :=
  let mark := match m.recentJobs with
    | first :: second :: _ => if place = first then "+" else if place = second then "-" else " "
    | [first] => if place = first then "+" else " "
    | [] => " "
  let number := toString (place + 1)
  let process := if showsProcess then toString j.process ++ " " else ""
  let text := s!"[{number}] {mark} " ++ process ++ stateWords j
  let others := String.join (List.replicate j.others " | ")
  Bytes.ofString (text ++ String.ofList (List.replicate (max 1 (33 - text.length)) ' ') ++ others ++ "\n")

end ObjectTables.Shell.Job
