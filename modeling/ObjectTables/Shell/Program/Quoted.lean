import ObjectTables.Shell.Script
/-!
Names in the messages of programs: as they are, or quoted so that a shell reads them as they are.

A name that has nothing in it that means something to a shell stands as it is. In single quotes, what cannot be
shown is written as an escape, which has quotes of its own. Where the only thing to quote is an apostrophe,
the quotes are double.
-/
namespace ObjectTables.Shell.Quoted

/-- A part of a name: a character that can be shown, or a byte that cannot. -/
inductive Part where
  | shown (c : Char)
  | hidden (b : UInt8)
deriving DecidableEq, Repr

/-- Whether a character leaves a trace where it is printed. -/
def isShown (c : Char) : Bool :=
  let n := c.toNat
  (0x20 ≤ n && n < 0x7F) || 0xA0 ≤ n

/-- The parts of a name. The fuel bounds the number of its bytes. -/
def parts : Nat → Bytes → List Part
  | 0, _ => []
  | _, [] => []
  | fuel + 1, b :: rest =>
    let character? := [1, 2, 3, 4].findSome? fun n =>
      match Bytes.decode? ((b :: rest).take n) with
      | some [c] => if isShown c then some (c, n) else none
      | _ => none
    match character? with
    | some (c, n) => .shown c :: parts fuel ((b :: rest).drop n)
    | none => .hidden b :: parts fuel rest

/-- Whether a character needs quotes wherever it stands. -/
def needsQuotes (c : Char) : Bool := " !\"$&'()*:;<=>?[\\^`|".toList.contains c

/-- Whether a character needs quotes at the start of a name. -/
def needsQuotesFirst (c : Char) : Bool := c = '#' || c = '~'

/-- Whether a brace needs quotes, which it does if it is all of a name. -/
def isBrace (c : Char) : Bool := c = '\x7b' || c = '\x7d'

/-- Whether a name can stand as it is. -/
def isPlain : List Part → Bool
  | [] => false
  | [.shown c] => !needsQuotes c && !needsQuotesFirst c && !isBrace c
  | first :: rest =>
    (match first with
      | .shown c => !needsQuotes c && !needsQuotesFirst c
      | .hidden _ => false) &&
    rest.all fun
      | .shown c => !needsQuotes c
      | .hidden _ => false

/-- Whether a character means nothing in double quotes. -/
def isSafeInDouble (c : Char) : Bool :=
  c.isAlphanum || " '%+,-./:]_".toList.contains c || 0x80 ≤ c.toNat

/-- Whether a name has an apostrophe and can stand in double quotes. -/
def fitsDouble (l : List Part) : Bool :=
  l.contains (.shown '\'') && l.all fun
    | .shown c => isSafeInDouble c
    | .hidden _ => false

/-- The escape of a byte, without its backslash. -/
def escapeOf (b : UInt8) : String :=
  match [(7, "a"), (8, "b"), (12, "f"), (10, "n"), (13, "r"), (9, "t"), (11, "v")].lookup b.toNat with
  | some letter => letter
  | none => String.ofList ([b.toNat / 64, b.toNat / 8 % 8, b.toNat % 8].map Nat.digitChar)

/-- Parts in single quotes, which have begun; in escapes is what stands in quotes of their own. -/
def single (inEscapes : Bool) : List Part → String
  | [] => "'"
  | .hidden b :: rest => (if inEscapes then "" else "'$'") ++ "\\" ++ escapeOf b ++ single true rest
  | .shown c :: rest =>
    -- An apostrophe ends the quotes before it in any case, and so the escapes too.
    if c = '\'' then "'\\''" ++ single false rest
    else (if inEscapes then "''" else "") ++ c.toString ++ single false rest

/-- A name as a message shows it. -/
def display (name : Bytes) : Bytes :=
  let l := parts (name.length + 1) name
  if isPlain l then name
  else if fitsDouble l then [code '"'] ++ name ++ [code '"']
  else Bytes.ofString ("'" ++ single false l)

end ObjectTables.Shell.Quoted
