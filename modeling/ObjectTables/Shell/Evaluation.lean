import ObjectTables.Shell.Call
/-!
Running commands.

The fuel bounds how deep commands stand in commands. A command that has none is taken as killed, and so is a
loop that does not end.
-/
namespace ObjectTables.Shell.Evaluation

/-! ### Loops -/

/-- What a loop does when a command in it has ended. -/
inductive Turn where
  | goOn
  | nextRound
  | leave
deriving DecidableEq, Repr

/-- What a loop does next. What is passed over ends here, or one loop less is left of it. -/
def turn : Act Turn := do
  let m ← get
  match m.skip with
  | .nothing => return .goOn
  | .call _ => return .leave
  | .loops n =>
    set { m with skip := if n ≤ 1 then .nothing else .loops (n - 1) }
    return .leave
  | .round n =>
    set { m with skip := if n ≤ 1 then .nothing else .round (n - 1) }
    return if n ≤ 1 then .nextRound else .leave

/-- The signal of those that are out of fuel. -/
def exhausted : Escape := .killed Signal.kill

/-- More rounds than any loop has that ends. -/
def enoughRounds : Nat := 1000000

/-- Runs a body as long as a test says. The status is that of the last round, unless the test was left with
one. -/
def rounds (r : Runner) (isTested until_ : Bool) (test body : Command) : Nat → Nat → Act Nat
  | 0, _ => throw exhausted
  | fuel + 1, status => do
    let tested ← r.run true test
    let isLeft := (← get).skip = .call true
    match ← turn with
    | .leave => return if isLeft then tested else status
    | .nextRound => rounds r isTested until_ test body fuel status
    | .goOn =>
      if (tested = 0) = until_ then return status
      let status ← r.run isTested body
      if (← turn) = .leave then return status
      rounds r isTested until_ test body fuel status

/-- Runs a body once for each of some values. -/
def roundsFor (r : Runner) (isTested : Bool) (name : Bytes) (body : Command) (status : Nat) : List Bytes → Act Nat
  | [] => return status
  | value :: rest => do
    Variable.assign name (some value)
    let status ← r.run isTested body
    if (← turn) = .leave then return status
    roundsFor r isTested name body status rest

/-- Runs a loop, which counts among those that can be left. -/
def inLoop (loop : Act Nat) : Act Nat := do
  modify fun m => { m with loops := m.loops + 1 }
  let status ← loop
  modify fun m => { m with loops := m.loops - 1 }
  return status

/-! ### Choices -/

/-- Whether one of some patterns matches a value. -/
def matchesAny (r : Runner) (value : Bytes) : List Word → Act Bool
  | [] => return false
  | pattern :: rest => do
    if Pattern.accepts (← Expansion.pattern r.output pattern) value then return true
    matchesAny r value rest

/-- Runs the first arm that has a pattern which matches a value. -/
def choose (r : Runner) (isTested : Bool) (value : Bytes) : List Arm → Act Nat
  | [] => return 0
  | .mk patterns body? :: rest => do
    if ← matchesAny r value patterns then
      match body? with
      | some body => r.run isTested body
      | none => return 0
    else choose r isTested value rest

/-! ### Commands -/

/-- Notes the line that messages name. -/
def atLine (line : Nat) : Act Unit := modify ({ · with line := line })

/-- Runs a command under redirections. -/
def redirected (r : Runner) (isTested : Bool) (body : Command) (redirects : List Redirect) : Act Nat := do
  let ready ← redirects.mapM (Redirection.ready r.output)
  let before ← get
  let act : Act Nat := do
    if ← Redirection.performAll r.output ready then r.run isTested body else return (← get).status
  Act.andAlways act (Redirection.undo ready before)

/-- What a subshell does: a command under redirections that need not be undone. -/
def inSubshell (r : Runner) (isTested : Bool) (body : Command) (ready : List Redirection.Ready) : Act Nat := do
  ready.forM (Redirection.perform r.output)
  r.run isTested body

/-- Gives a name a function. -/
def define (name : Bytes) (body : Command) : Act Unit := modify fun m =>
  { m with
    functions := (name, body) :: m.functions.filter (·.1 != name)
    remembered := m.remembered.filter (· != name) }

/-- What a command does; those that stand in it are run by a runner. -/
def step (r : Runner) (isTested : Bool) : Command → Act Nat
  | .simple line assignments words redirects => Call.run r isTested line assignments words redirects
  | .redirected line body redirects => do
    atLine line
    redirected r isTested body redirects
  | .subshell line body redirects => do
    atLine line
    let ready ← redirects.mapM (Redirection.ready r.output)
    Subshell.await r.text (inSubshell r isTested body ready)
  | .background line? body redirects => do
    line?.forM atLine
    let ready ← redirects.mapM (Redirection.ready r.output)
    Subshell.background r.text (inSubshell r false body ready)
    return 0
  | .pipeline parts inBackground => do
    if !inBackground then return (← Subshell.awaitPipeline r.text (r.run isTested) parts)
    Subshell.backgroundPipeline r.text (r.run isTested) parts
    return 0
  | .negated body => do
    let status ← r.run true body
    if (← get).skip != .nothing then return status
    return if status = 0 then 1 else 0
  | .both left right => do
    let status ← r.run true left
    if status != 0 || (← get).skip != .nothing then return status
    r.run isTested right
  | .either left right => do
    let status ← r.run true left
    if status = 0 || (← get).skip != .nothing then return status
    r.run isTested right
  | .sequence left right => do
    let status ← r.run isTested left
    if (← get).skip != .nothing then return status
    r.run isTested right
  | .conditional test yes no? => do
    let status ← r.run true test
    if (← get).skip != .nothing then return status
    if status = 0 then return (← r.run isTested yes)
    match no? with
    | some no => r.run isTested no
    | none => return 0
  | .loop until_ test body => inLoop (rounds r isTested until_ test body enoughRounds 0)
  | .each line name words body => do
    atLine line
    let values ← words.mapM (Expansion.arguments r.output)
    inLoop (roundsFor r isTested name body 0 values.flatten)
  | .choose line word arms => do
    atLine line
    let value ← Expansion.value r.output .single word
    choose r isTested value arms
  | .define _ name body => do
    define name body
    return 0

/-- Whether the failure of a command can end the shell. -/
def isChecked : Command → Bool
  | .simple .. | .subshell .. | .background .. | .pipeline .. => true
  | _ => false

/-- Runs what stands in a command by a function. -/
def runner (command : Bool → Command → Act Nat) : Runner where
  run := command
  script isTested k := Lines.run (command isTested) k enoughRounds

/-- Runs a command, and acts on the signals that wait before it and after it. The answer is the status that
the shell has then. -/
def run : Nat → Bool → Command → Act Nat
  | 0, _, _ => throw exhausted
  | fuel + 1, isTested, c => do
    let r := runner (run fuel)
    let m ← get
    if !m.isOn .noExecution then
      Trap.act r.text
      let status ← step r isTested c
      modify (·.finish status)
      if status != 0 && !isTested && isChecked c && (← get).isOn .exitOnError then throw .ended
    Trap.act r.text
    return (← get).status

end ObjectTables.Shell.Evaluation
