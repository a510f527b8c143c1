import ObjectTables.Shell.Reader.Basic
/-!
Reading words and other texts with expansions.

What a byte means depends on the quotes and braces around it. A level says how bytes are read, and how many
braces are open there; expansions that read their operands in another way than the text around them have
levels of their own. How the commands in a command substitution are read is a parameter here.
-/
namespace ObjectTables.Shell.Reader

/-- How bytes are read. -/
inductive Mode where
  | plain | single | double | arithmetic
deriving DecidableEq, Repr

/-- A level of a text. -/
structure Level where
  mode : Mode
  /-- Whether the text stands in double quotes. -/
  isQuoted : Bool := false
  /-- Whether double quotes are open in braces that stand in double quotes themselves. -/
  isRequoted : Bool := false
  /-- Whether the level ends with its first braces. -/
  endsWithBraces : Bool := false
  braces : Nat := 0
  /-- How many of the open braces are quoted. -/
  quotedBraces : Nat := 0
  parentheses : Nat := 0
deriving DecidableEq, Repr

/-- An expansion that has begun. -/
inductive Opening where
  | parameter (name : Bytes) (use : Use) (orEmpty : Bool)
  | sum
deriving DecidableEq, Repr

/-- A text on the way. Pieces are given last first. -/
structure Draft where
  level : Level
  outer : List Level := []
  pieces : List Piece := []
  /-- The expansions that have begun, innermost first, with the pieces before them. -/
  openings : List (Opening × List Piece) := []
  isQuoted : Bool := false

namespace Draft

/-- Puts a piece behind the others. -/
def push (d : Draft) (p : Piece) : Draft := { d with pieces := p :: d.pieces }

/-- Begins an expansion. -/
def enter (d : Draft) (o : Opening) : Draft := { d with pieces := [], openings := (o, d.pieces) :: d.openings }

/-- Ends an expansion. -/
def leave (d : Draft) : Draft :=
  match d.openings with
  | [] => d
  | (.parameter name use orEmpty, before) :: rest =>
    { d with pieces := .parameter name use orEmpty d.pieces.reverse :: before, openings := rest }
  | (.sum, before) :: rest => { d with pieces := .sum d.pieces.reverse :: before, openings := rest }

/-- Begins a level. -/
def raise (d : Draft) (level : Level) : Draft := { d with level := level, outer := d.level :: d.outer }

/-- Ends a level. -/
def lower (d : Draft) : Draft :=
  match d.outer with
  | [] => d
  | level :: rest => { d with level := level, outer := rest }

/-- Changes the level. -/
def onLevel (d : Draft) (f : Level → Level) : Draft := { d with level := f d.level }

end Draft

/-- Where a text stands. -/
inductive Place where
  | word
  /-- A word that is to end a here document; nothing is expanded in it. -/
  | mark
  /-- The lines of a here document, which end before a mark. -/
  | document (mark : Bytes) (dropTabs : Bool)
  /-- A text of its own, as if in double quotes. -/
  | text
deriving DecidableEq, Repr

/-- Whether quotes around a text are signs of a script. -/
def Place.hasQuotes : Place → Bool
  | .word | .mark => true
  | _ => false

/-- What a byte means. -/
inductive Meaning where
  | itself
  /-- Itself, even in a pattern. -/
  | guarded
  | newline | backslash | openSingle | openDouble | closeQuotes | dollar | closeBraces | openParenthesis
  | closeParenthesis | backquote
  /-- The end of a word. -/
  | border
deriving DecidableEq, Repr

/-- Whether a byte ends a word that is not quoted. -/
def isBorder (b : UInt8) : Bool := (Bytes.ofString "<>();&| \t").contains b

/-- The meaning of a byte. -/
def meaning (mode : Mode) (b : UInt8) : Meaning :=
  if b = code '\n' then .newline
  else match mode with
    | .single =>
      if b = code '\'' then .closeQuotes else if b = code '\\' || isGuarded b then .guarded else .itself
    | mode =>
      if b = code '\\' then .backslash
      else if b = code '`' then .backquote
      else if b = code '$' then .dollar
      else if b = code '\x7d' then .closeBraces
      else match mode with
        | .plain =>
          if b = code '\'' then .openSingle
          else if b = code '"' then .openDouble
          else if isBorder b then .border else .itself
        | .arithmetic =>
          if b = code '(' then .openParenthesis else if b = code ')' then .closeParenthesis else .itself
        | _ => if b = code '"' then .closeQuotes else if isGuarded b then .guarded else .itself

/-- How the commands in a command substitution are read: what stands up to a closing parenthesis, or a text
that has been taken out of backquotes. -/
structure Nested where
  parenthesized : Reader (Option Command)
  backquoted : Bytes → Reader (Option Command)

/-- More fuel than any script needs. -/
def enough : Nat := 1000000

/-- The byte after the one that comes next, and nothing of the two taken. -/
def second? : Reader (Option UInt8) := do
  let before ← get
  advance
  let b? ← ahead?
  set before
  return b?

/-- Takes the name in an expansion, and tells whether it stands after the sign of a length; `none` if there
is no name. -/
def parameterName (braced : Bool) : Reader (Option Bytes × Bool) := do
  let named (b : UInt8) (all : Bool) : Reader (Option Bytes) := do
    if isNameStart b then return some (← takeWhile isNameByte enough)
    if isDigit b then
      if all then return some (← takeWhile isDigit enough)
      advance
      return some [b]
    return none
  match ← ahead? with
  | none => return (none, false)
  | some b =>
    if let some name ← named b braced then return (some name, false)
    if b = code '\x7d' then return (none, false)
    if braced && b = code '#' then
      match ← second? with
      | some c =>
        if isNameByte c then
          advance
          return (← named c true, true)
        -- A sign between `#` and the brace is a parameter whose length is asked for.
        let before ← get
        advance
        let closes := (← second?) = some (code '\x7d')
        if c != code '\x7d' && closes then
          advance
          if isSpecialSign c then return (some [c], true) else return (none, false)
        set before
      | none => pure ()
    advance
    if isSpecialSign b then return (some [b], false) else return (none, false)

/-- Takes the sign that says what is done with a parameter in braces. A sign that says nothing known is
taken too. -/
def parameterUse : Reader (Use × Bool) := do
  match ← ahead? with
  | none => return (.unknown, false)
  | some b =>
    advance
    if b = code '%' || b = code '#' then return (.cut (b = code '%') (← takes b), false)
    if b = code ':' then
      match ← ahead? with
      | none => return (.unknown, true)
      | some c =>
        advance
        return (known c, true)
    return (known b, false)
where
  /-- What a sign says. -/
  known (b : UInt8) : Use :=
    if b = code '\x7d' then .value
    else if b = code '-' then .default
    else if b = code '+' then .alternative
    else if b = code '?' then .require
    else if b = code '=' then .assign
    else .unknown

/-- Reads an expansion of a parameter after its dollar sign and brace. -/
def parameter (braced : Bool) (d : Draft) : Reader Draft := do
  let (name?, isLength) ← parameterName braced
  let (use, orEmpty) ← match name? with
    | none => pure (Use.unknown, false)
    | some _ =>
      if !braced then pure (Use.value, false)
      else if isLength then pure (if (← ahead?) = some (code '\x7d') then Use.length else Use.unknown, false)
      else parameterUse
  let name := name?.getD []
  if !braced || (use = .value && !orEmpty) then return d.push (.parameter name use false [])
  let mode := match use with
    | .cut _ _ => .plain
    | _ => if d.level.mode = .arithmetic then .double else d.level.mode
  let d :=
    if mode != d.level.mode || d.level.isRequoted then
      d.raise { mode := mode, isQuoted := mode != .plain, endsWithBraces := true }
    else d
  let d := d.onLevel fun l =>
    { l with braces := l.braces + 1, quotedBraces := if l.isQuoted then l.quotedBraces + 1 else l.quotedBraces }
  return d.enter (.parameter name use orEmpty)

/-- Reads an expansion after its dollar sign. A dollar sign that begins none stands for itself. -/
def dollar (nested : Nested) (place : Place) (d : Draft) : Reader Draft := do
  let itself := d.push (.byte (code '$'))
  if place = .mark then return itself
  match ← ahead? with
  | none => return itself
  | some b =>
    if b = code '(' then
      advance
      if ← takes (code '(') then return (d.raise { mode := .arithmetic, isQuoted := true }).enter .sum
      return d.push (.output (← nested.parenthesized))
    if b = code '\x7b' then
      advance
      parameter true d
    else if isNameStart b || isDigit b || isSpecialSign b then parameter false d
    else return itself

/-- Takes what stands up to a backquote, which goes too. A backslash before a sign that means something there
goes. -/
def upToBackquote (isQuoted : Bool) : Nat → Reader Bytes
  | 0 => throw .unterminatedBackquotes
  | fuel + 1 => do
    match ← ahead? with
    | none => throw .unterminatedBackquotes
    | some b =>
      advance
      if b = code '`' then return []
      if b = code '\n' then countLine
      if b != code '\\' then return b :: (← upToBackquote isQuoted fuel)
      match ← next? with
      | none => throw .unterminatedBackquotes
      | some c =>
        advance
        let rest ← upToBackquote isQuoted fuel
        if (Bytes.ofString "\\`$").contains c || (isQuoted && c = code '"') then return c :: rest
        return b :: c :: rest

/-- Whether a here document ends where a line begins. Its mark is taken then; else the tabs are that it
does not keep. -/
def endsHere (place : Place) (mode : Mode) : Reader Bool := do
  match place with
  | .document mark dropTabs =>
    let _ ← if mode = .single then next? else ahead?
    modify fun r =>
      if dropTabs then { r with source := r.source.withRest (r.source.rest.dropWhile (· == code '\t')) } else r
    let s := (← get).source
    if mark.isPrefixOf s.rest then
      let after := s.rest.drop mark.length
      if after.head?.all (· == code '\n') then
        modify fun r => { r with source := { s.withRest (after.drop 1) with line := s.line + 1 } }
        return true
    return false
  | _ => return false

/-- Reads on in a text, up to the byte that ends it. The fuel bounds the number of bytes. -/
def readOn (nested : Nested) (place : Place) : Nat → Draft → Reader Draft
  | 0, _ => throw .unterminatedQuotes
  | fuel + 1, d => do
    let level := d.level
    match ← if level.mode = .single then next? else ahead? with
    | none => return d
    | some b =>
      let on (d : Draft) : Reader Draft := readOn nested place fuel d
      let withMark (d : Draft) : Draft := if place.hasQuotes then d.push .quote else d
      let itself : Reader Draft := do
        advance
        on (d.push (.byte b))
      match meaning level.mode b with
      | .itself => itself
      | .guarded =>
        advance
        on (d.push (if place.hasQuotes || level.isQuoted then .literal b else .byte b))
      | .newline =>
        if level.mode = .plain && level.braces = 0 then return d
        advance
        countLine
        let d := d.push (.byte b)
        if ← endsHere place level.mode then return d
        on d
      | .border => if level.braces = 0 then return d else itself
      | .backslash =>
        advance
        match ← next? with
        | none => on (d.push (.literal b))
        | some c =>
          advance
          let keeps :=
            level.isQuoted && !(Bytes.ofString "\\`$").contains c &&
              (c != code '"' || (!place.hasQuotes && level.braces = 0)) && (c != code '\x7d' || level.braces = 0)
          let d := if keeps then d.push (.literal b) else d
          on { d.push (.literal c) with isQuoted := true }
      | .openSingle =>
        advance
        on (withMark (d.onLevel ({ · with mode := .single })))
      | .openDouble =>
        advance
        on (withMark (d.onLevel fun l =>
          { l with mode := .double, isQuoted := true, isRequoted := if l.braces = 0 then l.isRequoted else !l.isRequoted }))
      | .closeQuotes =>
        if !place.hasQuotes && level.braces = 0 then itself
        else
          advance
          let d := d.onLevel fun l =>
            let l := if l.quotedBraces = 0 then { l with mode := .plain, isQuoted := false } else l
            if b = code '"' && l.braces != 0 then { l with isRequoted := !l.isRequoted } else l
          on (withMark { d with isQuoted := true })
      | .dollar =>
        advance
        on (← dollar nested place d)
      | .closeBraces =>
        if level.isRequoted || level.braces = 0 then itself
        else
          advance
          let d := d.onLevel ({ · with braces := level.braces - 1 })
          let d :=
            if level.braces = 1 && level.endsWithBraces then d.lower
            else d.onLevel ({ · with quotedBraces := level.quotedBraces - 1 })
          on d.leave
      | .openParenthesis =>
        advance
        on ((d.push (.byte b)).onLevel ({ · with parentheses := level.parentheses + 1 }))
      | .closeParenthesis =>
        advance
        if 0 < level.parentheses then
          on ((d.push (.byte b)).onLevel ({ · with parentheses := level.parentheses - 1 }))
        else if ← takes b then on d.lower.leave
        else on (d.push (.byte b))
      | .backquote =>
        if place = .mark then itself
        else
          advance
          let text ← upToBackquote level.isQuoted enough
          on (d.push (.output (← nested.backquoted text)))

/-- Reads a text up to its end. -/
def text (nested : Nested) (place : Place) (mode : Mode) : Reader Draft := do
  let d : Draft := { level := { mode := mode, isQuoted := mode = .double } }
  let d ← if ← endsHere place mode then pure d else readOn nested place enough d
  if d.level.mode = .arithmetic then throw (.missing "))")
  if d.level.mode != .plain && place.hasQuotes then throw .unterminatedQuotes
  if d.level.braces != 0 then throw (.missing "\x7d")
  return { d with pieces := d.pieces.reverse }

end ObjectTables.Shell.Reader
