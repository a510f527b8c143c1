import ObjectTables.Shell.Number
/-!
Rules for variables: which can be changed, what else a change does, and how they are listed.
-/
namespace ObjectTables.Shell.Variable

/-- The variable that says which argument is looked at next for options. -/
def optionIndex : Bytes := Bytes.ofString "OPTIND"

/-- The variable that says where programs are looked for. -/
def path : Bytes := Bytes.ofString "PATH"

/-- Does what else a new value of a variable means. -/
def notice (name : Bytes) (value? : Option Bytes) : Act Unit := do
  if name = optionIndex then
    let n ← Number.countOf (value?.getD [])
    modify ({ · with optionPlace := (if n = 0 then 1 else n, none) })
  else if name = path then modify ({ · with remembered := [] })

/-- Gives a variable a value, or takes it away, and perhaps marks it. A variable that is read only is not
changed. -/
def set (name : Bytes) (value? : Option Bytes) (exports : Bool := false) (protects : Bool := false)
    (notices : Bool := true) : Act Unit := do
  let m ← get
  let old? := m.bindings.lookup name
  if old?.any (·.isReadOnly) then Act.fail (name ++ Bytes.ofString ": is read only")
  if notices && value?.isSome then notice name value?
  let old := old?.getD {}
  let new : Variable := {
    value? := value?
    isExported := old.isExported || exports || m.isOn .allExport
    isReadOnly := protects }
  modify (·.put name (some new))

/-- Gives a variable a value if its name is one. -/
def assign (name : Bytes) (value? : Option Bytes) (exports : Bool := false) (protects : Bool := false) : Act Unit := do
  if !isName name then Act.fail (name.takeWhile (· != code '=') ++ Bytes.ofString ": bad variable name")
  set name value? exports protects

/-- Takes a variable away. -/
def forget (name : Bytes) : Act Unit := do
  if !isName name then Act.fail (name.takeWhile (· != code '=') ++ Bytes.ofString ": bad variable name")
  match (← get).bindings.lookup name with
  | none => return
  | some v =>
    if v.isReadOnly then Act.fail (name ++ Bytes.ofString ": is read only")
    if name = optionIndex then notice name (some (Bytes.ofString "1"))
    if name = path then notice name none
    modify (·.put name none)

/-- Gives a variable a value as long as a command runs, or leaves it as it is. -/
def hide (name : Bytes) (value? : Option Bytes) (exports : Bool) : Act Unit := do
  let m ← get
  let old? := m.bindings.lookup name
  match value? with
  | some value => set name (some value) exports
  | none => if old?.isNone then set name none exports
  modify fun m =>
    match m.hidden with
    | [] => m
    | top :: rest => { m with hidden := (.variable name old? :: top) :: rest }

/-- Gives back what a command has hidden. -/
def uncover (m : Machine) : Machine :=
  match m.hidden with
  | [] => m
  | top :: rest =>
    top.foldl (fun m h =>
      match h with
      | .variable name old? =>
        let m := m.put name old?
        if name = optionIndex then
          let value := (old?.bind (·.value?)).getD []
          { m with optionPlace := (max 1 ((Number.whole? false value).getD 1).toNat, none) }
        else m
      | .switches old => { m with switches := old }) { m with hidden := rest }

/-- Bytes in single quotes, in which a single quote stands in double quotes. -/
def inSingleQuotes (bytes : Bytes) : Bytes :=
  go (bytes.length + 1) bytes
where
  /-- Quotes what stands before the next single quotes, these, and what follows. -/
  go : Nat → Bytes → Bytes
    | 0, _ => []
    | fuel + 1, bytes =>
      let before := bytes.takeWhile (· != code '\'')
      let rest := bytes.drop before.length
      let marks := rest.takeWhile (· == code '\'')
      let after := rest.drop marks.length
      let start := [code '\''] ++ before ++ [code '\'']
      if marks.isEmpty then start
      else
        let start := start ++ [code '"'] ++ marks ++ [code '"']
        if after.isEmpty then start else start ++ go fuel after

/-- Whether some bytes come before others. -/
def precedes : Bytes → Bytes → Bool
  | [], b => !b.isEmpty
  | _, [] => false
  | a :: as, b :: bs => decide (a < b) || (a == b && precedes as bs)

/-- The variables of some kind as they are listed, each in a line. -/
def listing (start : Bytes) (m : Machine) (keep : Variable → Bool) : Bytes :=
  let kept := m.bindings.filter fun (_, v) => keep v
  let sorted := kept.mergeSort fun a b => !precedes b.1 a.1
  sorted.flatMap fun (name, v) =>
    let value := match v.value? with
      | some value => code '=' :: inSingleQuotes value
      | none => []
    (if start.isEmpty then [] else start ++ [code ' ']) ++ name ++ value ++ [code '\n']

end ObjectTables.Shell.Variable
