import ObjectTables.Shell.Program.Quoted
import ObjectTables.Shell.System
/-!
`cat`: files one after the other, perhaps with their lines numbered and their bytes made visible.
-/
namespace ObjectTables.Shell.Catenation

/-- What is done to the files. -/
structure Style where
  numbers : Bool := false
  /-- Whether blank lines are left without a number. -/
  numbersNonblank : Bool := false
  /-- Whether of several blank lines in sequence one is kept. -/
  squeezes : Bool := false
  marksEnds : Bool := false
  marksTabs : Bool := false
  /-- Whether bytes that cannot be seen are spelled. -/
  spells : Bool := false
deriving DecidableEq, Repr

namespace Style

/-- Whether files are copied as they are. -/
def isCopy (s : Style) : Bool := s = {}

/-- The style with the option of a letter, if there is one. -/
def withLetter? (s : Style) (letter : UInt8) : Option Style :=
  match Char.ofNat letter.toNat with
  | 'A' => some { s with spells := true, marksEnds := true, marksTabs := true }
  | 'b' => some { s with numbers := true, numbersNonblank := true }
  | 'e' => some { s with spells := true, marksEnds := true }
  | 'E' => some { s with marksEnds := true }
  | 'n' => some { s with numbers := true }
  | 's' => some { s with squeezes := true }
  | 't' => some { s with spells := true, marksTabs := true }
  | 'T' => some { s with marksTabs := true }
  | 'u' => some s
  | 'v' => some { s with spells := true }
  | _ => none

end Style

/-- The long names of options, with their letters. -/
def longNames : List (String × Char) :=
  [("number-nonblank", 'b'), ("number", 'n'), ("squeeze-blank", 's'), ("show-nonprinting", 'v'), ("show-ends", 'E'),
    ("show-tabs", 'T'), ("show-all", 'A')]

/-- What is wrong with the arguments. -/
inductive Misuse where
  | unknownLetter (letter : UInt8)
  | unknownName (option : Bytes)
  | ambiguous (option : Bytes) (names : List String)
  | unwantedValue (name : String)
deriving DecidableEq, Repr

/-- What is said about a misuse. -/
def Misuse.message : Misuse → Bytes
  | unknownLetter letter => Bytes.ofString "invalid option -- '" ++ [letter, code '\'']
  | unknownName option => Bytes.ofString "unrecognized option '" ++ option ++ [code '\'']
  | ambiguous option names =>
    let all := String.join (names.map fun n => s!" '--{n}'")
    Bytes.ofString "option '" ++ option ++ Bytes.ofString ("' is ambiguous; possibilities:" ++ all)
  | unwantedValue name => Bytes.ofString s!"option '--{name}' doesn't allow an argument"

/-- The style with the option of a long name, which may be cut short. -/
def withName (s : Style) (option : Bytes) : Except Misuse Style := do
  let name := (option.drop 2).takeWhile (· != code '=')
  let hasValue := 2 + name.length < option.length
  let close := longNames.filter fun (n, _) => name.isPrefixOf (Bytes.ofString n)
  let exact := close.filter fun (n, _) => Bytes.ofString n == name
  match if exact.isEmpty then close else exact with
  | [] => throw (.unknownName (option.take (2 + name.length)))
  | [(n, letter)] =>
    if hasValue then throw (.unwantedValue n)
    return (s.withLetter? (code letter)).getD s
  | several => throw (.ambiguous option (several.map (·.1)))

/-- The style that some arguments ask for, and those that name files. Options may stand behind these. -/
def ofArguments (s : Style) : List Bytes → Except Misuse (Style × List Bytes)
  | [] => return (s, [])
  | a :: rest => do
    match a with
    | [0x2D, 0x2D] => return (s, rest)
    | 0x2D :: 0x2D :: _ => ofArguments (← withName s a) rest
    | 0x2D :: letters =>
      if letters.isEmpty then
        let (s, files) ← ofArguments s rest
        return (s, a :: files)
      let s ← letters.foldlM (fun (s : Style) letter =>
        match s.withLetter? letter with
        | some s => Except.ok s
        | none => Except.error (.unknownLetter letter)) s
      ofArguments s rest
    | _ =>
      let (s, files) ← ofArguments s rest
      return (s, a :: files)

/-! ### Lines -/

/-- How far the files have been gone through. -/
structure Place where
  /-- How many line ends have just been met in sequence; `none` if a byte of a line has. -/
  ends? : Option Nat := some 0
  /-- The number of the last numbered line. -/
  line : Nat := 0
  /-- Whether a carriage return has been met that may belong to a line end. -/
  hasReturn : Bool := false

/-- The number before a line. -/
def numberText (n : Nat) : Bytes :=
  let digits := digitsOf n
  List.replicate (6 - digits.length) (code ' ') ++ digits ++ [code '\t']

/-- The spelling of a byte of seven bits. -/
def spelledLow (marksTabs : Bool) (b : UInt8) : Bytes :=
  if b = code '\t' && !marksTabs then [b]
  else if b < 32 then [code '^', b + 64]
  else if b = 127 then [code '^', code '?']
  else [b]

/-- The spelling of a byte that is no line end. -/
def spelled (s : Style) (b : UInt8) : Bytes :=
  if s.spells then
    if b < 128 then spelledLow s.marksTabs b else [code 'M', code '-'] ++ spelledLow true (b - 128)
  else if s.marksTabs && b = code '\t' then [code '^', code 'I'] else [b]

/-- Goes past a line end. -/
def passEnd (s : Style) (p : Place) : Bytes × Place :=
  let carriage := if p.hasReturn then Bytes.ofString "^M" else []
  let mark := if s.marksEnds then [code '$', code '\n'] else [code '\n']
  let p := { p with hasReturn := false }
  match p.ends? with
  | none => (carriage ++ mark, { p with ends? := some 0 })
  | some n =>
    if s.squeezes && 1 ≤ n then (carriage, { p with ends? := some 2 })
    else if s.numbers && !s.numbersNonblank then
      (carriage ++ numberText (p.line + 1) ++ mark, { p with ends? := some (n + 1), line := p.line + 1 })
    else (carriage ++ mark, { p with ends? := some (n + 1) })

/-- Goes past a byte that is no line end. -/
def passByte (s : Style) (p : Place) (b : UInt8) : Bytes × Place :=
  let carriage := if p.hasReturn then [code '\r'] else []
  let isFirst := p.ends?.isSome
  let number := if isFirst && s.numbers then numberText (p.line + 1) else []
  let waits := b = code '\r' && s.marksEnds && !s.spells
  let shown := if waits then [] else spelled s b
  (carriage ++ number ++ shown,
    { ends? := none, line := if isFirst && s.numbers then p.line + 1 else p.line, hasReturn := waits })

/-- Goes through the bytes of a file. -/
def passAll (s : Style) (p : Place) (bytes : Bytes) : Bytes × Place :=
  let (output, p) := bytes.foldl (fun ((output, p) : List Bytes × Place) b =>
    let (bytes, p) := if b = code '\n' then passEnd s p else passByte s p b
    (bytes :: output, p)) ([], p)
  (output.reverse.flatten, p)

/-! ### Files -/

/-- Writes a message to standard error. -/
def complain (message : Bytes) : Act Unit :=
  modify fun m => (m.write 2 (Bytes.ofString "cat: " ++ message ++ [code '\n'])).2

/-- The content of a file, or why it cannot be read. -/
def content (name : Bytes) : Act (Except String (Bytes × Option Location)) := do
  let m ← get
  if name = [code '-'] then
    match m.input 0 with
    | .error e => return .error e.words
    | .ok bytes => return .ok (bytes, m.fileOf? 0)
  match Outside.of? name with
  | some .directory => return .error SystemError.isDirectory.words
  | some (.descriptor n) =>
    match m.fileOf? n, m.input n with
    | some l, _ => return .ok (m.fileContent l, some l)
    | none, .ok bytes => return .ok (bytes, none)
    | none, .error _ => return .error SystemError.notFound.words
  | some _ => return .ok ([], none)
  | none =>
    match m.tree.locate m.directory name with
    | .error (.system e) => return .error e.words
    | .error e => return .error e.message
    | .ok l =>
      if m.tree.isDirectory l then return .error SystemError.isDirectory.words
      return .ok (m.fileContent l, some l)

/-- Goes past what is left of the input that a name stands for. -/
def consumeAll (name : Bytes) (n : Nat) : Act Unit := do
  if name = [code '-'] then modify (·.consume 0 n)

/-- Writes the files of some names. The answer tells whether all could be read; `none` if the output is
lost. -/
def writeAll (s : Style) (p : Place) : List Bytes → Act (Option Bool)
  | [] => do
    let (error?, m) := (← get).write 1 (if p.hasReturn then [code '\r'] else [])
    set m
    return if error?.isSome && p.hasReturn then none else some true
  | name :: rest => do
    match ← content name with
    | .error why =>
      complain (Quoted.display name ++ Bytes.ofString (": " ++ why))
      return (← writeAll s p rest).map fun _ => false
    | .ok (bytes, location?) =>
      if !bytes.isEmpty && location?.isSome && location? = (← get).fileOf? 1 then
        complain (Quoted.display name ++ Bytes.ofString ": input file is output file")
        return (← writeAll s p rest).map fun _ => false
      consumeAll name bytes.length
      let (output, p) := if s.isCopy then (bytes, p) else passAll s p bytes
      if !output.isEmpty then
        let (error?, m) := (← get).write 1 output
        set m
        match error? with
        | some e =>
          complain (Bytes.ofString ("write error: " ++ e.words))
          return none
        | none => pure ()
      writeAll s p rest

/-- Runs with some arguments. -/
def run (arguments : List Bytes) : Act Nat := do
  match ofArguments {} arguments with
  | .error misuse =>
    complain (misuse.message ++ Bytes.ofString "\nTry 'cat --help' for more information.")
    return 1
  | .ok (s, files) =>
    if ((← get).stream? 1).isNone then
      complain (Bytes.ofString ("standard output: " ++ StreamError.badDescriptor.words))
      return 1
    let files := if files.isEmpty then [[code '-']] else files
    match ← writeAll s {} files with
    | none => return 1
    | some isComplete =>
      if files.contains [code '-'] && ((← get).stream? 0).isNone then
        complain (Bytes.ofString ("closing standard input: " ++ StreamError.badDescriptor.words))
        return 1
      return if isComplete then 0 else 1

end ObjectTables.Shell.Catenation
