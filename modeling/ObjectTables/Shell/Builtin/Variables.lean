import ObjectTables.Shell.Builtin.Options
import ObjectTables.Shell.Expansion
/-!
Commands for variables and functions.
-/
namespace ObjectTables.Shell.Builtin

/-- The name in an argument, and the value behind an equals sign, if there is one. -/
def splitAssignment (argument : Bytes) : Bytes × Option Bytes :=
  let name := argument.takeWhile (· != code '=')
  match argument.drop name.length with
  | _ :: value => (name, some value)
  | [] => (name, none)

/-- Marks variables, which may get values, or lists those that have the mark. -/
def mark (name : Bytes) (exports : Bool) (arguments : List Bytes) : Act Nat := do
  let (lists?, s) ← Options.next "p" { arguments := arguments }
  let hasMark (v : Variable) : Bool := if exports then v.isExported else v.isReadOnly
  if lists?.isSome || s.arguments.isEmpty then
    modify fun m => m.print (Variable.listing name m hasMark)
    return 0
  s.arguments.forM fun a => do
    let (name, value?) := splitAssignment a
    match value?, (← get).bindings.lookup name with
    | none, some v =>
      let v := if exports then { v with isExported := true } else { v with isReadOnly := true }
      modify (·.put name (some v))
    | _, _ => Variable.assign name value? exports (!exports)
  return 0

/-- Makes variables ones of the function that runs. -/
def makeLocal (arguments : List Bytes) : Act Nat := do
  if (← get).hidden.isEmpty then Act.failWith "not in a function"
  arguments.forM fun a => do
    if a = [code '-'] then
      modify fun m =>
        match m.hidden with
        | [] => m
        | top :: rest => { m with hidden := (.switches m.switches :: top) :: rest }
    else
      let (name, value?) := splitAssignment a
      if value?.isNone && !isName name && ((← get).bindings.lookup name).isNone then
        Act.fail (name ++ Bytes.ofString ": bad variable name")
      Variable.hide name value? false
  return 0

/-- Takes variables or functions away. -/
def unset (arguments : List Bytes) : Act Nat := do
  let (options, names) ← Options.split "vf" arguments
  let isFunction := (options.getLast?.map (·.1)) = some (code 'f')
  names.forM fun name => do
    if isFunction then modify fun m => { m with functions := m.functions.filter (·.1 != name) }
    else Variable.forget name
  return 0

/-! ### Reading lines -/

/-- A line of input on its way: the strands before, last first, the bytes of the one that is read, last
first, and how many bytes of input have been used. -/
structure InputLine where
  strands : List Expansion.Strand := []
  bytes : Bytes := []
  used : Nat := 0

namespace InputLine

/-- Ends the strand that is read, and begins another one behind some bytes that stand for themselves. -/
def cut (l : InputLine) (between : Bytes) : InputLine :=
  let strand : Expansion.Strand := ⟨.value, (l.bytes.reverse).map fun b => .byte b false⟩
  let whole : List Expansion.Strand := if between.isEmpty then [] else [⟨.whole, between.map fun b => .byte b true⟩]
  { l with strands := whole ++ strand :: l.strands, bytes := [] }

/-- Reads on up to the end of the line, and tells whether it was found. A backslash takes the meaning of
the byte after it, unless lines are read raw. Zero bytes are passed over. -/
def read (isRaw : Bool) (escapes : Bool) (l : InputLine) : Bytes → InputLine × Bool
  | [] => (l.cut [], false)
  | b :: rest =>
    let l := { l with used := l.used + 1 }
    if b = 0 then read isRaw escapes l rest
    else if escapes then read isRaw false (l.cut (if b = code '\n' then [] else [b])) rest
    else if b = code '\n' then (l.cut [], true)
    else if !isRaw && b = code '\\' then read isRaw true l rest
    else read isRaw false { l with bytes := b :: l.bytes } rest

end InputLine

/-- Gives variables the fields of a line; those that are too many get nothing. -/
def assignFields : List Bytes → List (List Expansion.Sign) → Act Unit
  | [], _ => return
  | name :: names, fields => do
    let value := Expansion.bytesOf [⟨.whole, fields.head?.getD []⟩]
    Variable.assign name (some value)
    assignFields names fields.tail

/-- Reads a line of standard input into variables. -/
def read (arguments : List Bytes) : Act Nat := do
  let (options, names) ← Options.split "p:r" arguments
  if names.isEmpty then Act.failWith "arg count"
  let m ← get
  let bytes := match m.input 0 with
    | .ok bytes => bytes
    | .error _ => []
  let (line, hasEnd) := InputLine.read (options.any (·.1 = code 'r')) false {} bytes
  set (m.consume 0 line.used)
  assignFields names (Expansion.fields m.separators (some names.length) line.strands.reverse)
  return if hasEnd then 0 else 1

end ObjectTables.Shell.Builtin
