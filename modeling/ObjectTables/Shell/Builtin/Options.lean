import ObjectTables.Shell.Number
/-!
Options in the arguments of commands.

An argument that begins with a minus and has more in it holds options, one a letter. Two minuses end the
options. A letter before a colon among those that are known takes what follows it as its value, or the next
argument.
-/
namespace ObjectTables.Shell.Options

/-- Arguments on the way: the letters left of one that holds options, and those after it. -/
structure Scan where
  letters : Bytes := []
  arguments : List Bytes
deriving DecidableEq, Repr

/-- Whether a letter that is known takes a value. -/
def takesValue? (letter : UInt8) : Bytes → Option Bool
  | [] => none
  | known :: 0x3A :: rest => if known = letter then some true else takesValue? letter rest
  | known :: rest => if known = letter then some false else takesValue? letter rest

/-- What is said about a letter whose value is missing. -/
def missingValue (letter : UInt8) : Bytes := Bytes.ofString "No arg for -" ++ [letter] ++ Bytes.ofString " option"

/-- What is said about a letter that is not known. -/
def unknownLetter (letter : UInt8) : Bytes := Bytes.ofString "Illegal option -" ++ [letter]

/-- Takes the option of a letter. -/
def take (known : String) (letter : UInt8) (letters : Bytes) (arguments : List Bytes) :
    Act (Option (UInt8 × Bytes) × Scan) := do
  match takesValue? letter (Bytes.ofString known) with
  | none => Act.fail (unknownLetter letter)
  | some false => return (some (letter, []), ⟨letters, arguments⟩)
  | some true =>
    if !letters.isEmpty then return (some (letter, letters), ⟨[], arguments⟩)
    match arguments with
    | [] => Act.fail (missingValue letter)
    | value :: rest => return (some (letter, value), ⟨[], rest⟩)

/-- Takes the next option, if there is one, with its value. -/
def next (known : String) (s : Scan) : Act (Option (UInt8 × Bytes) × Scan) := do
  match s.letters, s.arguments with
  | letter :: letters, arguments => take known letter letters arguments
  | [], [0x2D, 0x2D] :: rest => return (none, ⟨[], rest⟩)
  | [], (0x2D :: letter :: letters) :: rest => take known letter letters rest
  | [], arguments => return (none, ⟨[], arguments⟩)

/-- Takes all options. The fuel bounds their number. -/
def takeAll (known : String) : Nat → Scan → Act (List (UInt8 × Bytes) × List Bytes)
  | 0, s => return ([], s.arguments)
  | fuel + 1, s => do
    match ← next known s with
    | (none, s) => return ([], s.arguments)
    | (some o, s) =>
      let (others, rest) ← takeAll known fuel s
      return (o :: others, rest)

/-- The options at the start of some arguments, and those after them. -/
def split (known : String) (arguments : List Bytes) : Act (List (UInt8 × Bytes) × List Bytes) :=
  takeAll known (arguments.flatten.length + 1) { arguments := arguments }

/-- The arguments of a command that has no options. -/
def operands (arguments : List Bytes) : Act (List Bytes) := do return (← split "" arguments).2

end ObjectTables.Shell.Options
