import ObjectTables.Shell.Source
/-!
Readers of scripts: tokens, mistakes, and single bytes.

A backslash before a line end joins two lines. It is dropped wherever a byte is looked at with `ahead`.
-/
namespace ObjectTables.Shell

/-- The words that are part of the grammar where a command can begin. -/
inductive Keyword where
  | not | case | do_ | done | elif | else_ | esac | fi | for_ | if_ | in_ | then_ | until_ | while_ | opening | closing
deriving DecidableEq, Repr

namespace Keyword

/-- All keywords with their spellings. -/
def spellings : List (Keyword × String) :=
  [(not, "!"), (case, "case"), (do_, "do"), (done, "done"), (elif, "elif"), (else_, "else"), (esac, "esac"), (fi, "fi"),
    (for_, "for"), (if_, "if"), (in_, "in"), (then_, "then"), (until_, "until"), (while_, "while"), (opening, "\x7b"),
    (closing, "\x7d")]

/-- The spelling of a keyword. -/
def spelling (k : Keyword) : String := (spellings.lookup k).getD ""

/-- The keyword that is spelled in some way. -/
def ofBytes? (bytes : Bytes) : Option Keyword :=
  (spellings.find? fun (_, s) => Bytes.ofString s == bytes).map (·.1)

end Keyword

/-- A token. What a word is made of is kept by the reader. -/
inductive Token where
  | finish | newline | semicolon | ampersand | both | either | pipe | opening | closing | endArm
  | redirection (descriptor : Nat) (direction : Direction) (dropTabs : Bool)
  | word
  | keyword (k : Keyword)
deriving DecidableEq, Repr

namespace Token

/-- The words that a message has for a token. -/
def shown : Token → String
  | finish => "end of file"
  | newline => "newline"
  | semicolon => "\";\""
  | ampersand => "\"&\""
  | both => "\"&&\""
  | either => "\"||\""
  | pipe => "\"|\""
  | opening => "\"(\""
  | closing => "\")\""
  | endArm => "\";;\""
  | redirection .. => "redirection"
  | word => "word"
  | keyword k => "\"" ++ k.spelling ++ "\""

/-- Whether a list of commands ends before a token. -/
def endsList : Token → Bool
  | finish | closing | endArm => true
  | keyword k => [.do_, .done, .elif, .else_, .esac, .fi, .then_, .closing].contains k
  | _ => false

end Token

/-- What is wrong with a script. -/
inductive Mistake where
  /-- A token cannot stand where it does; sometimes only one could. -/
  | unexpected (token : Token) (expected? : Option Token)
  | unterminatedQuotes
  | unterminatedBackquotes
  /-- An expansion lacks the sign that ends it. -/
  | missing (sign : String)
  | badLoopName
  | badFunctionName
deriving DecidableEq, Repr

/-- What the shell says about a mistake. -/
def Mistake.message : Mistake → String
  | unexpected token expected? =>
    let expected := match expected? with
      | some t => " (expecting " ++ t.shown ++ ")"
      | none => ""
    "Syntax error: " ++ token.shown ++ " unexpected" ++ expected
  | unterminatedQuotes => "Syntax error: Unterminated quoted string"
  | unterminatedBackquotes => "Syntax error: EOF in backquote substitution"
  | missing sign => "Syntax error: Missing '" ++ sign ++ "'"
  | badLoopName => "Syntax error: Bad for loop variable"
  | badFunctionName => "Syntax error: Bad function name"

/-- A here document that has been asked for: its number, the line that ends it, whether tabs at the start of
its lines are dropped, and whether it is expanded. -/
structure Awaited where
  document : Nat
  mark : Bytes
  dropTabs : Bool
  expands : Bool
deriving DecidableEq, Repr

/-- A reader on its way. -/
structure Reading where
  source : Source
  /-- The aliases with their values. -/
  aliases : List (Bytes × Bytes) := []
  /-- Whether the next word is replaced if it is an alias. -/
  replaces : Bool := false
  /-- The here documents whose text has not been reached. -/
  awaited : List Awaited := []
  /-- All here documents, by their numbers. -/
  documents : Array Document := #[]
  /-- The last token. -/
  last : Token := .finish
  /-- Whether the last token is still to be read. -/
  isBack : Bool := false
  /-- The last word, and whether something in it is quoted. -/
  word : Word := []
  isQuoted : Bool := false

/-- A reader of some part of a script. -/
abbrev Reader (α : Type) := ExceptT Mistake (StateM Reading) α

namespace Reader

/-- The byte that comes next. -/
def next? : Reader (Option UInt8) := do
  modify fun r =>
    let s := { r.source with ended := [] }
    if s.above.isEmpty then { r with source := s }
    else
      let (blank, s) := Source.settle s.above s
      { r with source := s, replaces := r.replaces || blank }
  return (← get).source.rest.head?

/-- Goes past the byte that comes next. -/
def advance : Reader Unit := modify fun r => { r with source := r.source.withRest (r.source.rest.drop 1) }

/-- Goes to the next line. -/
def countLine : Reader Unit := modify fun r => { r with source := { r.source with line := r.source.line + 1 } }

/-- What is left after some joined lines, and how many there were. -/
def afterJoins : Bytes → Bytes × Nat
  | 0x5C :: 0x0A :: rest =>
    let (rest, n) := afterJoins rest
    (rest, n + 1)
  | rest => (rest, 0)

/-- The byte that comes next when lines are joined. -/
def ahead? : Reader (Option UInt8) := do
  match ← next? with
  | some 0x5C =>
    let s := (← get).source
    let (rest, n) := afterJoins s.rest
    if n = 0 then return some 0x5C
    modify fun r => { r with source := { s.withRest rest with line := s.line + n } }
    next?
  | b? => return b?

/-- Goes past a byte if it comes next. -/
def takes (b : UInt8) : Reader Bool := do
  if (← ahead?) = some b then
    advance
    return true
  return false

/-- Takes bytes as long as they are of one kind; the fuel bounds their number. -/
def takeWhile (p : UInt8 → Bool) : Nat → Reader Bytes
  | 0 => return []
  | fuel + 1 => do
    match ← ahead? with
    | some b =>
      if p b then
        advance
        return b :: (← takeWhile p fuel)
      return []
    | none => return []

end Reader

end ObjectTables.Shell
