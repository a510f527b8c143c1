import ObjectTables.Shell.Builtin.Options
import ObjectTables.Shell.Lookup
/-!
Commands for the working directory and for the permissions that new files do not get.
-/
namespace ObjectTables.Shell.Builtin

/-- The path of a location from the root. -/
def pathOf (l : Location) : Path :=
  if l.isEmpty then [Path.separator] else l.flatMap fun name => Path.separator :: name

/-- A location with the steps of a path taken one by one; nobody asks whether they can be. -/
def afterSteps (l : Location) (steps : List Name) : Location :=
  steps.foldl (fun l step =>
    if step = Path.here then l else if step = Path.above then l.dropLast else l ++ [step]) l

/-- Whether the last of some options that contradict each other is the one for real directories. -/
def isPhysical (options : List (UInt8 × Bytes)) : Bool := (options.getLast?.map (·.1)) = some (code 'P')

/-- Goes to a directory, if it is one. -/
def enter (isPhysical : Bool) (p : Path) : Act Bool := do
  let m ← get
  let steps := afterSteps (FileTree.start m.directory p) (Path.steps p)
  let directory? := match m.find? (if isPhysical then p else pathOf steps) with
    | some (.entry l .directory) => some l
    | some (.outside .directory) => some steps
    | _ => none
  match directory? with
  | none => return false
  | some l =>
    let before := pathOf m.directory
    set { m with directory := l }
    Variable.assign (Bytes.ofString "OLDPWD") (some before) true
    Variable.assign (Bytes.ofString "PWD") (some (pathOf l)) true
    return true

/-- Whether a path is taken as it is, and not looked for in several directories. -/
def isFixed (p : Path) : Bool :=
  Path.isAbsolute p || (Path.steps p).head? = some Path.here || (Path.steps p).head? = some Path.above

/-- Goes to the first of some directories that can be entered. The answer tells where it is, if that is not
as it was asked for. -/
def enterFirst (isPhysical : Bool) (p : Path) : List Path → Act (Option Bool)
  | [] => return none
  | base :: rest => do
    let candidate := if base.isEmpty then p else base ++ Path.separator :: p
    match (← get).find? candidate with
    | some (.entry _ .directory) | some (.outside .directory) =>
      return if ← enter isPhysical candidate then some (!base.isEmpty) else none
    | _ => enterFirst isPhysical p rest

/-- Changes the working directory. -/
def cd (arguments : List Bytes) : Act Nat := do
  let (options, rest) ← Options.split "LP" arguments
  let m ← get
  let valueOf (name : String) : Bytes := (m.valueOf? (Bytes.ofString name)).getD []
  let isBack := rest.head? = some [code '-']
  let asked := match rest with
    | [] => valueOf "HOME"
    | p :: _ => if isBack then valueOf "OLDPWD" else p
  let p := if asked.isEmpty then Path.here else asked
  let bases := (valueOf "CDPATH").splitOn (code ':')
  let isPhysical := isPhysical options
  let direct : Act (Option Bool) := do return if ← enter isPhysical p then some false else none
  let entered? ←
    if isFixed p && !asked.isEmpty then direct
    else
      match ← enterFirst isPhysical p bases with
      | some elsewhere => pure (some elsewhere)
      | none => direct
  match entered? with
  | none => Act.fail (Bytes.ofString "can't cd to " ++ p)
  | some elsewhere =>
    if isBack || elsewhere then modify fun m => m.print (pathOf m.directory ++ [code '\n'])
    return 0

/-- Writes the path of the working directory. -/
def pwd (arguments : List Bytes) : Act Nat := do
  let _ ← Options.split "LP" arguments
  modify fun m => m.print (pathOf m.directory ++ [code '\n'])
  return 0

/-! ### Permissions -/

/-- The bits that a number has and another one has not, of nine bits. -/
def without (a b : Nat) : Nat := a &&& (b ^^^ 511)

/-- A mask as four octal digits. -/
def octalMask (mask : Nat) : Bytes :=
  let digits := Nat.toDigits 8 mask
  Bytes.ofString (String.ofList (List.replicate (4 - digits.length) '0' ++ digits))

/-- A mask as the permissions that it leaves. -/
def symbolicMask (mask : Nat) : Bytes :=
  let left := without 511 mask
  let group (who : String) (shift : Nat) : String :=
    let has (bit : Nat) (letter : String) : String := if (left >>> shift) &&& bit != 0 then letter else ""
    s!"{who}=" ++ has 4 "r" ++ has 2 "w" ++ has 1 "x"
  Bytes.ofString (",".intercalate [group "u" 6, group "g" 3, group "o" 0])

/-- The mask that octal digits denote. -/
def readOctal : Nat → Bytes → Option Nat
  | mask, [] => some mask
  | mask, b :: rest => if code '0' ≤ b && b < code '8' then readOctal (8 * mask + (b.toNat - 48)) rest else none

/-- The bits of those whom some letters mean; all if there are none. -/
def whoBits (letters : Bytes) : Nat :=
  if letters.isEmpty then 73
  else letters.foldl (fun bits b =>
    bits ||| (if b = code 'a' then 73 else if b = code 'u' then 64 else if b = code 'g' then 8 else 1)) 0

/-- The permissions that some letters mean, given those that there are. -/
def permissionBits (before : Nat) (letters : Bytes) : Nat :=
  7 &&& letters.foldl (fun bits b =>
    bits ||| match Char.ofNat b.toNat with
      | 'r' => 4
      | 'w' => 2
      | 'x' => 1
      | 'u' => before >>> 6
      | 'g' => before >>> 3
      | 'o' => before
      | 'X' => if before &&& 73 != 0 then 1 else 0
      | _ => 0) 0

/-- The permissions after a symbolic change of some. The fuel bounds the length of the change. -/
def changed (before : Nat) : Nat → Option Nat → Nat → Bytes → Option Nat
  | 0, _, _, _ => none
  | _, _, now, [] => some now
  | fuel + 1, who?, now, bytes =>
    let letters := bytes.takeWhile ((Bytes.ofString "augo").contains ·)
    let who := match who? with
      | some who => who ||| (if letters.isEmpty then 0 else whoBits letters)
      | none => whoBits letters
    match bytes.drop letters.length with
    | [] => some now
    | operator :: rest =>
      if !(Bytes.ofString "=+-").contains operator then none
      else
        let letters := rest.takeWhile ((Bytes.ofString "rwxugoXs").contains ·)
        let bits := permissionBits before letters * who
        let now :=
          if operator = code '-' then without now bits
          else if operator = code '+' then now ||| bits
          else bits ||| without now (who * 7)
        match rest.drop letters.length with
        | [] => some now
        | 0x2C :: rest => changed before fuel none now rest
        | b :: rest => if (Bytes.ofString "=+-").contains b then changed before fuel (some who) now (b :: rest) else none

/-- Writes or changes the permissions that new files do not get. -/
def umask (arguments : List Bytes) : Act Nat := do
  let (options, rest) ← Options.split "S" arguments
  let m ← get
  match rest with
  | [] =>
    modify (·.print ((if options.isEmpty then octalMask m.mask else symbolicMask m.mask) ++ [code '\n']))
  | a :: _ =>
    if a.head?.any isDigit then
      match readOctal 0 a with
      | none => Act.illegalNumber a
      | some mask => set { m with mask := mask % 512 }
    else
      let before := without 511 m.mask
      match changed before (a.length + 1) none before a with
      | none => Act.fail (Bytes.ofString "Illegal mode: " ++ a)
      | some now => set { m with mask := without 511 now }
  return 0

end ObjectTables.Shell.Builtin
