import ObjectTables.Shell.Builtin.Options
import ObjectTables.Shell.Lookup
import ObjectTables.Shell.Reader.Basic
/-!
Commands about the names of commands: aliases, and what a name stands for.
-/
namespace ObjectTables.Shell.Builtin

/-- Writes a line to standard error, without the name of the shell. -/
def say (message : Bytes) : Act Unit := modify fun m => (m.write 2 (message ++ [code '\n'])).2

/-- The places for the names of aliases. -/
def aliasPlaces : Nat := 39

/-- The places for the names of programs. -/
def programPlaces : Nat := 31

/-- An alias as a command that makes it, without the command. -/
def aliasText (name value : Bytes) : Bytes := name ++ code '=' :: Variable.inSingleQuotes value

/-- Lists aliases or makes some. -/
def makeAliases (arguments : List Bytes) : Act Nat := do
  if arguments.isEmpty then
    modify fun m => m.print <|
      (Callee.inPlaces aliasPlaces (·.1) m.aliases).flatMap fun (name, value) => aliasText name value ++ [code '\n']
    return 0
  let mut output : Bytes := []
  let mut status := 0
  for a in arguments do
    -- An equals sign at the start belongs to the name.
    let name := a.take 1 ++ (a.drop 1).takeWhile (· != code '=')
    match a.drop name.length with
    | _ :: value =>
      modify fun m =>
        if (m.aliases.lookup name).isSome then
          { m with aliases := m.aliases.map fun (n, old) => (n, if n = name then value else old) }
        else { m with aliases := m.aliases ++ [(name, value)] }
    | [] =>
      match (← get).aliases.lookup name with
      | some value => output := output ++ aliasText name value ++ [code '\n']
      | none =>
        say (Bytes.ofString "alias: " ++ name ++ Bytes.ofString " not found")
        status := 1
  modify (·.print output)
  return status

/-- Takes aliases away. -/
def forgetAliases (arguments : List Bytes) : Act Nat := do
  let (all?, s) ← Options.next "a" { arguments := arguments }
  if all?.isSome then
    modify ({ · with aliases := [] })
    return 0
  let mut status := 0
  for name in s.arguments do
    if ((← get).aliases.lookup name).isSome then
      modify fun m => { m with aliases := m.aliases.filter (·.1 != name) }
    else
      say (Bytes.ofString "unalias: " ++ name ++ Bytes.ofString " not found")
      status := 1
  return status

/-- The text about what a name stands for, at length or in short; `none` if it stands for nothing. -/
def describe? (isLong : Bool) (path? : Option Bytes) (name : Bytes) : Act (Option Bytes) := do
  let m ← get
  let text (long : Bytes) (short : Bytes) : Option Bytes := some (if isLong then name ++ long else short)
  if (Keyword.ofBytes? name).isSome then return text (Bytes.ofString " is a shell keyword") name
  match m.aliases.lookup name with
  | some value =>
    return text (Bytes.ofString " is an alias for " ++ value) (Bytes.ofString "alias " ++ aliasText name value)
  | none =>
    let isTracked := path?.isNone && m.remembered.contains name
    match ← Callee.resolve true path? name with
    | .function _ => return text (Bytes.ofString " is a shell function") name
    | .own =>
      let kind := if isSpecialCommand name then "special shell builtin" else "shell builtin"
      return text (Bytes.ofString s!" is a {kind}") name
    | .program p =>
      if Callee.isPath name && (m.find? p).isNone then return none
      return text (Bytes.ofString (if isTracked then " is a tracked alias for " else " is ") ++ p) p
    | .unknown _ => return none

/-- The status of a command that is not found. -/
def unknownStatus : Nat := 127

/-- Describes some names. -/
def describeAll (isLong : Bool) (path? : Option Bytes) (names : List Bytes) : Act Nat := do
  let mut output : Bytes := []
  let mut status := 0
  for name in names do
    match ← describe? isLong path? name with
    | some text => output := output ++ text ++ [code '\n']
    | none =>
      if isLong then output := output ++ name ++ Bytes.ofString ": not found\n"
      status := unknownStatus
  modify (·.print output)
  return status

/-- Describes the name after the options of `command`, if they ask for that. -/
def describeOne (arguments : List Bytes) : Act Nat := do
  let (options, rest) ← Options.split "pvV" arguments
  let has (c : Char) : Bool := options.any (·.1 = code c)
  if has 'v' || has 'V' then
    describeAll (has 'V') (if has 'p' then some Callee.standardPath else none) (rest.take 1)
  else return 0

/-- Complains that a command cannot be called. -/
def complainUnknown (name : Bytes) (why : String) : Act Unit :=
  modify (·.complain (name ++ Bytes.ofString (": " ++ why)))

/-- Lists the programs that are remembered, forgets them, or looks some up. -/
def hash (arguments : List Bytes) : Act Nat := do
  let (forgets?, s) ← Options.next "r" { arguments := arguments }
  if forgets?.isSome then
    modify ({ · with remembered := [] })
    return 0
  if s.arguments.isEmpty then
    modify fun m => m.print <| (Callee.inPlaces programPlaces id m.remembered).flatMap fun name =>
      match Callee.search m (Callee.searchPath m) name with
      | .ok p => p ++ [code '\n']
      | .error _ => []
    return 0
  let mut status := 0
  for name in s.arguments do
    modify fun m => { m with remembered := m.remembered.filter (· != name) }
    match ← Callee.resolve true none name with
    | .unknown why =>
      complainUnknown name why
      status := 1
    | _ => pure ()
  return status

end ObjectTables.Shell.Builtin
