import ObjectTables.Shell.Script
/-!
Signals by their numbers and names. Number zero stands for the end of the shell.
-/
namespace ObjectTables.Shell.Signal

/-- The names of the signals that have one of their own, from number one on. -/
def firstNames : List String :=
  ["HUP", "INT", "QUIT", "ILL", "TRAP", "ABRT", "BUS", "FPE", "KILL", "USR1", "SEGV", "USR2", "PIPE", "ALRM", "TERM",
    "16", "CHLD", "CONT", "STOP", "TSTP", "TTIN", "TTOU", "URG", "XCPU", "XFSZ", "VTALRM", "PROF", "WINCH", "IO", "PWR",
    "SYS", "32", "33"]

/-- The names of the signals that are free for any use. -/
def freeNames : List String :=
  "RTMIN" :: (List.range 15).map (fun n => "RTMIN+" ++ toString (n + 1)) ++
    (List.range 14).map (fun n => "RTMAX-" ++ toString (14 - n)) ++ ["RTMAX"]

/-- The names of all signals by their numbers. -/
def names : List Bytes := (["EXIT"] ++ firstNames ++ freeNames).map Bytes.ofString

/-- A byte with a small letter made a capital. -/
def capital (b : UInt8) : UInt8 := if code 'a' ≤ b && b ≤ code 'z' then b - 32 else b

/-- The signal that a number or a name stands for, the lowest one being given. -/
def ofBytes? (least : Nat) (bytes : Bytes) : Option Nat :=
  if !bytes.isEmpty && bytes.all isDigit then
    let n := decimal bytes
    if n < names.length then some n else none
  else
    let known := (names.map (·.map capital)).zipIdx
    (known.find? fun (name, n) => least ≤ n && name == bytes.map capital).map (·.2)

/-- The words for the signals that have a name of their own, from number one on. -/
def descriptions : List String :=
  ["Hangup", "Interrupt", "Quit", "Illegal instruction", "Trace/breakpoint trap", "Aborted", "Bus error",
    "Floating point exception", "Killed", "User defined signal 1", "Segmentation fault", "User defined signal 2",
    "Broken pipe", "Alarm clock", "Terminated", "Stack fault", "Child exited", "Continued", "Stopped (signal)",
    "Stopped", "Stopped (tty input)", "Stopped (tty output)", "Urgent I/O condition", "CPU time limit exceeded",
    "File size limit exceeded", "Virtual timer expired", "Profiling timer expired", "Window changed", "I/O possible",
    "Power failure", "Bad system call"]

/-- The words for a signal that has a name of its own. -/
def description? (signal : Nat) : Option String := if signal = 0 then none else descriptions[signal - 1]?

/-- The signals whose killing nobody remarks on. -/
def quiet : List Nat := [2, 13]

/-- The number of the signal that tells the end of a process begun by this one. -/
def child : Nat := 17

/-- The number of the signal that asks a process to end. -/
def terminate : Nat := 15

/-- The number of the signal that cannot be caught. -/
def kill : Nat := 9

/-- The signals that do not end a process that does not catch them. -/
def harmless : List Nat := [17, 18, 19, 20, 21, 22, 23, 28]

end ObjectTables.Shell.Signal
