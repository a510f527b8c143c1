import ObjectTables.Text.Utf8
/-!
Scripts of the POSIX shell, as they are read.

A word is a sequence of pieces: bytes, places where quoting begins or ends, and expansions. Commands are
simple commands and the compound ones built from them. Words hold the commands whose output takes their
place, so both are defined together.
-/
namespace ObjectTables.Shell

/-- The byte of an ASCII character. -/
def code (c : Char) : UInt8 := UInt8.ofNat c.toNat

/-- What an expansion does with its parameter. -/
inductive Use where
  /-- Nothing that is known; such an expansion fails. -/
  | unknown
  | value
  | length
  /-- `-`: the operand takes the place of an absent parameter. -/
  | default
  /-- `+`: the operand takes the place of a parameter that is not absent. -/
  | alternative
  /-- `=`: an absent parameter gets the operand as its value. -/
  | assign
  /-- `?`: an absent parameter is an error, with the operand as its message. -/
  | require
  /-- `#` cuts what the operand matches off the start, `%` off the end; `longest` if the sign stands
  twice. -/
  | cut (fromEnd longest : Bool)
deriving DecidableEq, Repr

/-- What a redirection does with its target. -/
inductive Direction where
  | read
  | write
  /-- Writes even where files are protected. -/
  | overwrite
  | append
  | readWrite
  /-- Makes the descriptor stand for what the target stands for, or closes it. -/
  | duplicate
  /-- Reads the here document of that number. -/
  | here (document : Nat)
deriving DecidableEq, Repr

mutual

/-- A piece of a word. -/
inductive Piece where
  /-- A byte that is not quoted, or that means nothing where it is quoted. -/
  | byte (b : UInt8)
  /-- A byte that stands for itself. -/
  | literal (b : UInt8)
  /-- Where quoting begins or ends. -/
  | quote
  /-- A parameter; `orEmpty` if an empty one counts as absent. -/
  | parameter (name : Bytes) (use : Use) (orEmpty : Bool) (operand : List Piece)
  /-- The output of a script, if there is a command in it. -/
  | output (script? : Option Command)
  /-- The value of an arithmetic expression. -/
  | sum (expression : List Piece)

/-- A redirection of one descriptor. -/
inductive Redirect where
  | mk (descriptor : Nat) (direction : Direction) (target : List Piece)

/-- An arm of a choice: its patterns and what is done if one of them matches. -/
inductive Arm where
  | mk (patterns : List (List Piece)) (body? : Option Command)

/-- A command. The line is the one on which it begins. -/
inductive Command where
  | simple (line : Nat) (assignments : List (Bytes × List Piece)) (words : List (List Piece))
      (redirects : List Redirect)
  | redirected (line : Nat) (body : Command) (redirects : List Redirect)
  | subshell (line : Nat) (body : Command) (redirects : List Redirect)
  /-- A command that is not waited for. It has a line of its own if it is redirected. -/
  | background (line? : Option Nat) (body : Command) (redirects : List Redirect)
  | pipeline (parts : List Command) (inBackground : Bool)
  | negated (body : Command)
  | both (left right : Command)
  | either (left right : Command)
  | sequence (left right : Command)
  | conditional (test yes : Command) (no? : Option Command)
  | loop (until_ : Bool) (test body : Command)
  | each (line : Nat) (name : Bytes) (words : List (List Piece)) (body : Command)
  | choose (line : Nat) (word : List Piece) (arms : List Arm)
  | define (line : Nat) (name : Bytes) (body : Command)

end

/-- A word, which expands to no, one or several arguments. -/
abbrev Word := List Piece

/-- The text of a redirection that stands in the lines after its command. -/
inductive Document where
  /-- A text that is taken as it is. -/
  | raw (text : Bytes)
  /-- A text with expansions. -/
  | expanded (text : Word)

instance : Inhabited Command := ⟨.simple 0 [] [] []⟩

/-- Whether a byte can begin a name. -/
def isNameStart (b : UInt8) : Bool :=
  (code 'a' ≤ b && b ≤ code 'z') || (code 'A' ≤ b && b ≤ code 'Z') || b == code '_'

/-- Whether a byte is a decimal digit. -/
def isDigit (b : UInt8) : Bool := code '0' ≤ b && b ≤ code '9'

/-- Whether a byte can stand in a name. -/
def isNameByte (b : UInt8) : Bool := isNameStart b || isDigit b

/-- Whether some bytes are a name. -/
def isName : Bytes → Bool
  | [] => false
  | b :: rest => isNameStart b && rest.all isNameByte

/-- Whether a byte is a sign that names a parameter of the shell itself. -/
def isSpecialSign (b : UInt8) : Bool := (Bytes.ofString "@*#?-$!").contains b

/-- Whether a byte means something in a pattern, in a path or in an assignment. -/
def isGuarded (b : UInt8) : Bool := (Bytes.ofString "!*?[]=~:/-").contains b

/-- The commands of the shell that a function cannot take the place of, and whose mistakes end it. -/
def specialCommands : List String :=
  [".", ":", "break", "continue", "eval", "exec", "exit", "export", "local", "readonly", "return", "set", "shift",
    "times", "trap", "unset"]

/-- Whether some bytes are the name of a special command. -/
def isSpecialCommand (name : Bytes) : Bool := specialCommands.any fun s => Bytes.ofString s == name

/-- Whether a byte is white space: a space, or one of the five that move the place of printing. -/
def isSpace (b : UInt8) : Bool := b == 0x20 || (0x09 ≤ b && b ≤ 0x0D)

/-- The decimal number that some digits denote. -/
def decimal (digits : Bytes) : Nat := digits.foldl (fun n d => 10 * n + (d.toNat - 48)) 0

/-- The decimal digits of a number, with a sign if it is negative. -/
def digitsOf (n : Int) : Bytes := Bytes.ofString (toString n)

/-- The bytes of a word that is all plain bytes. -/
def Word.plain? (w : Word) : Option Bytes :=
  w.mapM fun
    | .byte b => some b
    | _ => none

end ObjectTables.Shell
