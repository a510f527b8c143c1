import ObjectTables.Shell.Builtin.Options
import ObjectTables.Shell.Variable
/-!
Commands for the parameters of a shell and for the options that it runs with.
-/
namespace ObjectTables.Shell.Builtin

/-- All switches with their states, a line each. -/
def switchTable (m : Machine) : Bytes :=
  Bytes.ofString "Current option settings\n" ++ Switch.all.flatMap fun (s, name, _) =>
    let state := if m.isOn s then "on" else "off"
    Bytes.ofString (name ++ String.ofList (List.replicate (16 - name.length) ' ') ++ state ++ "\n")

/-- All switches as commands that set them. -/
def switchCommands (m : Machine) : Bytes :=
  Switch.all.flatMap fun (s, name, _) =>
    let sign := if m.isOn s then "-o" else "+o"
    Bytes.ofString s!"set {sign} {name}\n"

/-- Turns a switch on or off. -/
def putSwitch (s : Switch) (on : Bool) : Act Unit :=
  modify fun m => { m with switches := Switch.put s on m.switches }

/-- Turns the switches of some letters on or off. Some of them take arguments. The answer tells whether
the letter that announces a script was among them, which it is only at the start of a shell. -/
def putLetters (isStart on : Bool) : Bytes → List Bytes → Act (Bool × List Bytes)
  | [], rest => return (false, rest)
  | letter :: more, rest => do
    if isStart && letter = code 'c' then
      let (_, rest) ← putLetters isStart on more rest
      return (true, rest)
    if isStart && letter = code 'l' then return (← putLetters isStart on more rest)
    if letter = code 'o' then
      match rest with
      | [] =>
        modify fun m => m.print (if on then switchTable m else switchCommands m)
        putLetters isStart on more []
      | name :: rest =>
        match Switch.ofName? name with
        | none => Act.fail (Bytes.ofString "Illegal option -o " ++ name)
        | some s =>
          putSwitch s on
          putLetters isStart on more rest
    else
      match Switch.ofLetter? letter with
      | none => Act.illegalOption letter
      | some s =>
        putSwitch s on
        putLetters isStart on more rest

/-- Turns switches on or off as the arguments say, up to the first that holds none. The fuel bounds the
number of arguments. -/
def putSwitches (isStart : Bool) : Nat → List Bytes → Act (Bool × List Bytes)
  | 0, l => return (false, l)
  | fuel + 1, l => do
    let goOn (on : Bool) (letters : Bytes) (rest : List Bytes) : Act (Bool × List Bytes) := do
      let (isScript, rest) ← putLetters isStart on letters rest
      let (more, rest) ← putSwitches isStart fuel rest
      return (isScript || more, rest)
    match l with
    | [0x2D] :: rest =>
      if !isStart then
        putSwitch .trace false
        putSwitch .verbose false
      return (false, rest)
    | [0x2D, 0x2D] :: rest =>
      if !isStart && rest.isEmpty then modify ({ · with parameters := [], optionPlace := (1, none) })
      return (false, rest)
    | (0x2D :: letters) :: rest => goOn true letters rest
    | (0x2B :: letters) :: rest => goOn false letters rest
    | l => return (false, l)

/-- Refuses to control jobs, which needs a terminal. -/
def refuseMonitor : Act Unit := do
  let m ← get
  if m.isOn .monitor && m.process = Machine.mainProcess then
    modify (·.complain (Bytes.ofString "can't access tty; job control turned off"))
    putSwitch .monitor false

/-- Lists the variables, or turns switches on or off and replaces the parameters. -/
def setAll (arguments : List Bytes) : Act Nat := do
  if arguments.isEmpty then
    modify fun m => m.print (Variable.listing [] m fun v => v.value?.isSome)
    return 0
  let (_, rest) ← putSwitches false arguments.length arguments
  refuseMonitor
  if !rest.isEmpty then modify ({ · with parameters := rest, optionPlace := (1, none) })
  return 0

/-- Drops parameters. -/
def shift (arguments : List Bytes) : Act Nat := do
  let n ← match arguments with
    | [] => pure 1
    | a :: _ => Number.countOf a
  let m ← get
  if m.parameters.length < n then Act.failWith "can't shift that many"
  set { m with parameters := m.parameters.drop n, optionPlace := (1, none) }
  return 0

/-! ### Options of scripts -/

/-- The variable that holds the value of an option. -/
def optionValue : Bytes := Bytes.ofString "OPTARG"

/-- Where the search for options stands: the number of the next word, and what is left of the one before. -/
structure Search where
  next : Nat
  letters? : Option Bytes

/-- What is found: the letter that the variable gets, and where the search goes on. -/
structure Find where
  letter : UInt8
  search : Search
  isLast : Bool := false

/-- Takes a letter that is among those left of a word. -/
def takeLetter (known : Bytes) (words : List Bytes) (letter : UInt8) (letters : Bytes) (next : Nat) : Act Find := do
  let isQuiet := known.head? = some (code ':')
  let refuse (message : Bytes) : Act Unit := do
    if isQuiet then Variable.assign optionValue (some [letter])
    else
      modify fun m => (m.write 2 (message ++ [code '\n'])).2
      Variable.forget optionValue
  match Options.takesValue? letter known with
  | none =>
    refuse (Options.unknownLetter letter)
    return ⟨code '?', ⟨next, some letters⟩, false⟩
  | some false =>
    Variable.assign optionValue (some [])
    return ⟨letter, ⟨next, some letters⟩, false⟩
  | some true =>
    if !letters.isEmpty then
      Variable.assign optionValue (some letters)
      return ⟨letter, ⟨next, none⟩, false⟩
    match words[next - 1]? with
    | some value =>
      Variable.assign optionValue (some value)
      return ⟨letter, ⟨next + 1, none⟩, false⟩
    | none =>
      refuse (Options.missingValue letter)
      return ⟨if isQuiet then code ':' else code '?', ⟨next, none⟩, false⟩

/-- Looks for the next option in some words. -/
def findOption (known : Bytes) (words : List Bytes) (s : Search) : Act Find := do
  match s.letters? with
  | some (letter :: letters) => takeLetter known words letter letters s.next
  | _ =>
    match words[s.next - 1]? with
    | some [0x2D, 0x2D] => return ⟨code '?', ⟨s.next + 1, none⟩, true⟩
    | some (0x2D :: letter :: letters) => takeLetter known words letter letters (s.next + 1)
    | _ => return ⟨code '?', ⟨s.next, none⟩, true⟩

/-- Gives a variable the next option of the parameters, or of other words. -/
def getopts (arguments : List Bytes) : Act Nat := do
  match ← Options.operands arguments with
  | known :: name :: others =>
    let m ← get
    let words := if others.isEmpty then m.parameters else others
    let (index, offset?) := if words.length + 1 < m.optionPlace.1 then (1, none) else m.optionPlace
    let letters? := do
      let offset ← offset?
      let word ← if index ≤ 1 then none else words[index - 2]?
      if word.length < offset then none else some (word.drop offset)
    let found ← findOption known words ⟨index, letters?⟩
    let next := found.search.next
    Variable.set Variable.optionIndex (some (digitsOf next)) false false false
    Variable.assign name (some [found.letter])
    let offset? := found.search.letters?.map fun letters => ((words[next - 2]?).getD []).length - letters.length
    modify ({ · with optionPlace := (next, offset?) })
    return if found.isLast then 1 else 0
  | _ => Act.failWith "Usage: getopts optstring var [arg...]"

end ObjectTables.Shell.Builtin
