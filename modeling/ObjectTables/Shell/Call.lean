import ObjectTables.Shell.Builtin
import ObjectTables.Shell.Lines
import ObjectTables.Shell.Program
import ObjectTables.Shell.Redirection
import ObjectTables.Shell.Subshell
/-!
Simple commands: what they call, and what is done before and after that.

The words up to the name are expanded first, because the name decides how the others are. Then all targets of
redirections are expanded, the redirections are done, and the assignments are made. When the command has ended,
its redirections are undone, and so are assignments that were made for it alone.
-/
namespace ObjectTables.Shell

/-- How commands are run that stand in others. -/
structure Runner where
  /-- Runs a command; it is told whether its status is tested. -/
  run : (isTested : Bool) → Command → Act Nat
  /-- Runs a script; it is told whether its status is tested. -/
  script : (isTested : Bool) → Lines.Kind → Bytes → Act Nat

namespace Runner

/-- Runs the text of a trap. -/
def text (r : Runner) : Bytes → Act Nat := r.script false .text

/-- The output of a command. -/
def output (r : Runner) (c : Command) : Act Bytes := Subshell.outputOf r.text (r.run false c)

end Runner

namespace Call

/-! ### The words -/

/-- The command that calls another one past functions. -/
def bypass : Bytes := Bytes.ofString "command"

/-- The command that takes the place of the shell. -/
def takeover : Bytes := Bytes.ofString "exec"

/-- What `command` calls, as far as its arguments are known. -/
inductive Target where
  /-- This depends on arguments that are not known yet. Without these, `command` is what is called last. -/
  | pending (own : List Bytes)
  /-- Nothing: it works itself. -/
  | itself (own : List Bytes)
  | call (isStandard : Bool) (words : List Bytes)
deriving DecidableEq, Repr

/-- Looks for what `command` calls among its arguments. The words from the last `command` on are given, and
whether programs are looked for along the standard path. -/
def target (isStandard : Bool) (own : List Bytes) : List Bytes → Target
  | [] => .pending own
  | [0x2D, 0x2D] :: [] => .pending own
  | [0x2D, 0x2D] :: name :: rest => if name = bypass then target isStandard (name :: rest) rest else .call isStandard (name :: rest)
  | (0x2D :: letter :: letters) :: rest =>
    if (letter :: letters).all (· == code 'p') then target true own rest else .itself own
  | name :: rest => if name = bypass then target isStandard (name :: rest) rest else .call isStandard (name :: rest)

/-- Expands words up to the first that yields arguments. -/
def firstArguments (output : Command → Act Bytes) : List Word → Act (List Bytes × List Word)
  | [] => return ([], [])
  | w :: rest => do
    match ← Expansion.arguments output w with
    | [] => firstArguments output rest
    | l => return (l, rest)

/-- Expands words until it is known what `command` calls with its arguments. -/
def reach (output : Command → Act Bytes) (words : List Bytes) : List Word → Act (Target × List Bytes × List Word)
  | [] => return (target false words (words.drop 1), words, [])
  | w :: rest => do
    match target false words (words.drop 1) with
    | .pending _ => reach output (words ++ (← Expansion.arguments output w)) rest
    | t => return (t, words, w :: rest)

/-- A call whose words are expanded. -/
structure Plan where
  /-- The name that is called, with its arguments; nothing for a command that has no words. -/
  words : List Bytes := []
  /-- What stands before the name. -/
  before : List Bytes := []
  hasFunctions : Bool := true
  /-- The path along which programs are looked for, if it is not that of the shell. -/
  path? : Option Bytes := none
  /-- Whether the command is one of those whose mistakes end the shell. -/
  isSpecial : Bool := false
  /-- Whether the command takes the place of the shell, or keeps its redirections. -/
  isTakeover : Bool := false
  /-- Whether assignments are made for this call alone. -/
  isLocal : Bool := false
deriving DecidableEq, Repr

/-- Whether a name is that of a command of the shell's own. -/
def isOwn (m : Machine) (hasFunctions : Bool) (name : Bytes) : Bool :=
  Callee.isOwn name && !(hasFunctions && (m.functions.lookup name).isSome)

/-- Expands words that follow a name. Those that are assignments may be expanded as such. -/
def argumentsOf (output : Command → Act Bytes) (hasAssignments : Bool) (words : List Word) : Act (List Bytes) := do
  let l ← words.mapM fun w =>
    if hasAssignments && (Reader.assignment? w).isSome then do return [← Expansion.value output .assignment w]
    else Expansion.arguments output w
  return l.flatten

/-- Expands the words of a command. -/
def plan (output : Command → Act Bytes) (words : List Word) : Act Plan := do
  let (first, rest) ← firstArguments output words
  match first with
  | [] => return {}
  | name :: _ =>
    let m ← get
    if !isOwn m true name then
      return { words := first ++ (← argumentsOf output false rest), isLocal := true }
    if name != bypass then
      return {
        words := first ++ (← argumentsOf output (Callee.takesAssignments name) rest)
        isSpecial := isSpecialCommand name
        isTakeover := name = takeover
        isLocal := !isSpecialCommand name }
    match ← reach output first rest with
    | (.call isStandard words, all, rest) =>
      let name := words.head?.getD []
      return {
        words := words ++ (← argumentsOf output (Callee.takesAssignments name) rest)
        before := all.take (all.length - words.length)
        hasFunctions := false
        path? := if isStandard then some Callee.standardPath else none
        isTakeover := name = takeover
        isLocal := true }
    | (.pending own, all, rest) | (.itself own, all, rest) =>
      return {
        words := own ++ (← argumentsOf output false rest)
        before := all.take (all.length - own.length)
        hasFunctions := false
        isLocal := true }

/-! ### What is called -/

/-- Runs a command of the shell's own in its name. It is a mistake if its output is lost. -/
def inName (name : Bytes) (body : Act Nat) : Act Nat := do
  let speaker? := (← get).speaker?
  modify ({ · with speaker? := some name })
  let act : Act Nat := do
    let status ← body
    let m ← get
    if !m.hasLostOutput then return status
    set (m.complain ((m.speaker?.getD []) ++ Bytes.ofString ": I/O error"))
    return status ||| 1
  Act.andAlways act ({ · with speaker? := speaker?, hasLostOutput := false })

/-- The shell after a function or a script that may have been left before its end. -/
def afterLeaving (m : Machine) : Machine :=
  match m.skip with
  | .call _ => { m with skip := .nothing }
  | _ => m

/-- Runs the text that some arguments make. -/
def evaluate (r : Runner) (isTested : Bool) (arguments : List Bytes) : Act Nat :=
  if arguments.isEmpty then return 0 else r.script isTested .text ([code ' '].intercalate arguments)

/-- The path of a script that a name stands for. A name without separators is looked for along the search
path. -/
def scriptPath (name : Bytes) : Act Path := do
  if Callee.isPath name then return name
  let m ← get
  let isFile (p : Path) : Bool := match m.find? p with
    | some (.entry _ (.file _)) | some (.outside .program) => true
    | _ => false
  match (Callee.candidates (Callee.searchPath m) name).find? isFile with
  | some p => return p
  | none => Act.fail (name ++ Bytes.ofString ": not found")

/-- The content of a script file, without zero bytes. -/
def scriptContent (p : Path) : Act Bytes := do
  let s ← Redirection.openPath .read p
  let m ← get
  let bytes := match s.channel with
    | .file l _ _ => m.fileContent l
    | .pipe n => m.pipeContent n
    | _ => []
  return bytes.filter (· != 0)

/-- Runs a script file as a part of the shell. -/
def source (r : Runner) (arguments : List Bytes) : Act Nat := do
  match ← Options.operands arguments with
  | [] => return 0
  | name :: _ =>
    let p ← scriptPath name
    let content ← scriptContent p
    modify ({ · with speaker? := some p })
    let status ← r.script false .part content
    modify afterLeaving
    return status

/-- Lets a program take the place of the shell, if one is named. -/
def takeOver : List Bytes → Act Nat
  | [] => return 0
  | name :: arguments => do
    modify fun m => { m with switches := Switch.put .interactive false m.switches }
    Program.replace name arguments

/-- Runs a command of the shell's own. -/
def callOwn (r : Runner) (isTested : Bool) (name : Bytes) (arguments : List Bytes) : Act Nat :=
  match Path.display name with
  | "." => source r arguments
  | "eval" => evaluate r isTested arguments
  | "exec" => takeOver arguments
  | name => Builtin.run name arguments

/-- How many functions can be run within each other. -/
def maxCalls : Nat := 1000

/-- Runs the body of a function with parameters of its own. -/
def callFunction (r : Runner) (isTested : Bool) (body : Command) (arguments : List Bytes) : Act Nat := do
  let before ← get
  if maxCalls ≤ before.calls then Act.failWith s!"Maximum function recursion depth ({maxCalls}) reached"
  set { before with parameters := arguments, optionPlace := (1, none), calls := before.calls + 1, loops := 0 }
  Act.andAlways (r.run isTested body) fun m =>
    { afterLeaving m with
      parameters := before.parameters
      optionPlace := before.optionPlace
      calls := before.calls
      loops := before.loops }

/-- Calls what a plan says. A mistake in a command that is not special only ends that command. -/
def perform (r : Runner) (isTested : Bool) (p : Plan) : Act Nat := do
  match p.words with
  | [] => return (← get).substituted
  | name :: arguments =>
    match ← Callee.resolve p.hasFunctions p.path? name with
    | .own =>
      match ← Act.caught (inName name (callOwn r isTested name arguments)) with
      | .ok status => return status
      | .error e => if e = .failed && !p.isSpecial then return (← get).status else throw e
    | .function body => callFunction r isTested body arguments
    | .program path =>
      Subshell.await r.text do
        let status ← Program.run path name arguments
        modify (·.finish status)
    | .unknown why =>
      Builtin.complainUnknown name why
      return Builtin.unknownStatus

/-! ### The command -/

/-- Makes an assignment; the answer is its text. -/
def assign (r : Runner) (p : Plan) (assignment : Bytes × Word) : Act Bytes := do
  let (name, word) := assignment
  let value ← Expansion.value r.output .assigned word
  if p.isLocal then Variable.hide name (some value) true
  else Variable.set name (some value) (p.isTakeover && 1 < p.words.length)
  return name ++ code '=' :: value

/-- The mark that traces begin with, expanded as if it stood in double quotes. If that fails, it is taken as
it is. -/
def traceMark (r : Runner) : Act Bytes := do
  let m ← get
  let mark := (m.valueOf? (Bytes.ofString "PS4")).getD []
  let (word, _) := Reader.quotedText.run.run { source := Source.ofScript mark, aliases := m.aliases }
  set { m with isTracing := true }
  let expanded : Act Bytes := match word with
    | .ok word => Expansion.value r.output .quoted word
    | .error mistake => Act.failWith mistake.message
  match ← Act.caught (Act.andAlways expanded ({ · with isTracing := m.isTracing })) with
  | .ok text => return text
  | .error .failed => return mark
  | .error e => throw e

/-- Shows a command to a stream before it is run, if the shell is to do so. -/
def trace (r : Runner) (index? : Option Nat) (assignments : List Bytes) (p : Plan) : Act Unit := do
  let m ← get
  if !m.isOn .trace || m.isTracing then return
  let mark ← traceMark r
  let line := mark ++ [code ' '].intercalate (assignments ++ p.before ++ p.words) ++ [code '\n']
  modify fun m =>
    match index?.bind fun index => m.streams[index]?.map (index, ·) with
    | some (index, s) => (m.writeTo index s line).2
    | none => m

/-- Gives back what is hidden above some depth. -/
def uncoverTo (depth : Nat) (m : Machine) : Machine :=
  (List.range (m.hidden.length - depth)).foldl (fun m _ => Variable.uncover m) m

/-- Does what a plan says between the redirections and their end. -/
def afterRedirections (r : Runner) (isTested : Bool) (traced? : Option Nat) (assignments : List (Bytes × Word))
    (p : Plan) : Act Nat := do
  let texts ← assignments.mapM (assign r p)
  trace r traced? texts p
  perform r isTested p

/-- Runs a simple command. -/
def run (r : Runner) (isTested : Bool) (line : Nat) (assignments : List (Bytes × Word)) (words : List Word)
    (redirects : List Redirect) : Act Nat := do
  modify ({ · with line := line, substituted := 0 })
  let p ← plan r.output words
  let depth := (← get).hidden.length
  if p.isLocal then modify fun m => { m with hidden := [] :: m.hidden }
  let ready ← redirects.mapM (Redirection.ready r.output)
  let before ← get
  let act : Act Nat := do
    if ← Redirection.performAll r.output ready then
      afterRedirections r isTested (before.descriptors.lookup 2) assignments p
    else if p.isSpecial then throw .failed
    else return (← get).status
  match ← Act.caught act with
  | .ok status =>
    modify fun m => uncoverTo depth (if p.isTakeover then m else Redirection.undo ready before m)
    return status
  | .error e =>
    modify (Redirection.undo ready before)
    throw e

end Call

end ObjectTables.Shell
