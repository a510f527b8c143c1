import ObjectTables.Shell.Reader.Word
/-!
Reading commands.

A script is read one complete command at a time, so that what stands before a mistake has been done when the
mistake is met. The fuel bounds how deep the readers call each other; no script needs more than `enough`.
-/
namespace ObjectTables.Shell.Reader

/-- What a token may be, where it is read. -/
structure Checks where
  /-- Line ends are skipped. -/
  newlines : Bool := false
  keywords : Bool := false
  aliases : Bool := false

/-- Where a command can begin. -/
def Checks.command : Checks := { newlines := true, keywords := true, aliases := true }

/-- Where one keyword is due. -/
def Checks.keyword : Checks := { newlines := true, keywords := true }

/-- The word that a here document's mark is, without its quotes. -/
def unquoted (w : Word) : Bytes :=
  w.filterMap fun
    | .byte b | .literal b => some b
    | _ => none

/-- Takes the texts of the here documents that have been asked for. -/
def documents (nested : Nested) : List Awaited → Reader Unit
  | [] => return
  | a :: rest => do
    let mode := if a.expands then Mode.double else Mode.single
    let d ← text nested (.document a.mark a.dropTabs) mode
    let document : Document := if a.expands then .expanded d.pieces else .raw (unquoted d.pieces)
    modify fun r => { r with documents := r.documents.setIfInBounds a.document document }
    documents nested rest

/-- Takes the texts of all here documents that are awaited. -/
def takeDocuments (nested : Nested) : Reader Unit := do
  let awaited := (← get).awaited
  modify ({ · with awaited := [] })
  documents nested awaited

/-- Goes past a comment. -/
def skipComment : Reader Unit := modify fun r =>
  { r with source := r.source.withRest (r.source.rest.dropWhile (· != code '\n')) }

/-- Reads a sign that redirects, after the number of its descriptor. -/
def redirection (descriptor? : Option Nat) : Reader Token := do
  let reads := (← ahead?) = some (code '<')
  advance
  let token (direction : Direction) (dropTabs : Bool := false) : Reader Token :=
    return .redirection (descriptor?.getD (if reads then 0 else 1)) direction dropTabs
  if reads then
    if ← takes (code '<') then return (← token (.here 0) (← takes (code '-')))
    if ← takes (code '&') then return (← token .duplicate)
    if ← takes (code '>') then return (← token .readWrite)
    token .read
  else
    if ← takes (code '>') then return (← token .append)
    if ← takes (code '|') then return (← token .overwrite)
    if ← takes (code '&') then return (← token .duplicate)
    token .write

/-- Reads a word, or the redirection that it turns out to begin. -/
def wordOrRedirection (nested : Nested) (place : Place) : Reader Token := do
  let d ← text nested place .plain
  let next? := (← get).source.rest.head?
  let redirects := !d.isQuoted && next?.any fun b => b = code '<' || b = code '>'
  match redirects, d.pieces with
  | true, [] => redirection none
  | true, [.byte b] =>
    if isDigit b then return (← redirection (some (decimal [b])))
    keep d
  | _, _ => keep d
where
  /-- Keeps the word that has been read. -/
  keep (d : Draft) : Reader Token := do
    modify ({ · with word := d.pieces, isQuoted := d.isQuoted })
    return .word

/-- Reads a token without asking what a word means; the fuel bounds the number of blanks before it. -/
def rawToken (nested : Nested) (place : Place) : Nat → Reader Token
  | 0 => throw .unterminatedQuotes
  | fuel + 1 => do
    if (← get).isBack then
      modify ({ · with isBack := false })
      return (← get).last
    let one (t : Token) : Reader Token := do
      advance
      return t
    let twice (b : UInt8) (t twofold : Token) : Reader Token := do
      advance
      return if ← takes b then twofold else t
    match ← ahead? with
    | none => return .finish
    | some b =>
      if Source.isBlank b then
        advance
        rawToken nested place fuel
      else if b = code '#' then
        skipComment
        rawToken nested place fuel
      else if b = code '\n' then
        countLine
        one .newline
      else if b = code '&' then twice b .ampersand .both
      else if b = code '|' then twice b .pipe .either
      else if b = code ';' then twice b .semicolon .endArm
      else if b = code '(' then one .opening
      else if b = code ')' then one .closing
      else wordOrRedirection nested place

/-- Reads a token. The fuel bounds the number of line ends and aliases before it. -/
def checkedToken (nested : Nested) (place : Place) (checks : Checks) : Nat → Reader Token
  | 0 => throw .unterminatedQuotes
  | fuel + 1 => do
    let t ← rawToken nested place enough
    modify ({ · with last := t })
    match t with
    | .newline =>
      if checks.newlines then
        takeDocuments nested
        checkedToken nested place checks fuel
      else return t
    | .word =>
      let r ← get
      match if r.isQuoted then none else r.word.plain? with
      | none => return t
      | some name =>
        match if checks.keywords then Keyword.ofBytes? name else none with
        | some k =>
          modify ({ · with last := .keyword k })
          return .keyword k
        | none =>
          match if r.replaces && !r.source.isInUse name then r.aliases.lookup name else none with
          | none => return t
          | some value =>
            modify fun r => if value.isEmpty then r else { r with source := r.source.insert name value }
            checkedToken nested place checks fuel
    | _ => return t

/-- Reads a token. -/
def token (nested : Nested) (checks : Checks := {}) (place : Place := .word) : Reader Token := do
  modify ({ · with replaces := checks.aliases })
  checkedToken nested place checks enough

/-- Puts the last token back. -/
def putBack : Reader Unit := modify ({ · with isBack := true })

/-- Fails because of the last token. -/
def refuse {α : Type} (expected? : Option Token := none) : Reader α := do
  throw (.unexpected (← get).last expected?)

/-- Takes a token that has to be a certain one. -/
def expect (nested : Nested) (t : Token) (checks : Checks := {}) : Reader Unit := do
  if (← token nested checks) != t then refuse (some t)

/-- Takes the target of a redirection. -/
def target (nested : Nested) (descriptor : Nat) (direction : Direction) (dropTabs : Bool) : Reader Redirect := do
  let place := match direction with
    | .here _ => Place.mark
    | _ => Place.word
  if (← token nested {} place) != .word then refuse
  let r ← get
  match direction with
  | .here _ =>
    let n := r.documents.size
    set { r with
      documents := r.documents.push (.raw [])
      awaited := r.awaited ++ [Awaited.mk n (unquoted r.word) dropTabs (!r.isQuoted)] }
    return .mk descriptor (.here n) []
  | _ => return .mk descriptor direction r.word

/-- Takes the redirections that come next; the fuel bounds their number. -/
def redirects (nested : Nested) (checks : Checks) : Nat → Reader (List Redirect)
  | 0 => return []
  | fuel + 1 => do
    match ← token nested checks with
    | .redirection descriptor direction dropTabs =>
      let r ← target nested descriptor direction dropTabs
      return r :: (← redirects nested checks fuel)
    | _ =>
      putBack
      return []

/-- The assignment that a word is, if it begins with a name and an equals sign. -/
def assignment? (w : Word) : Option (Bytes × Word) :=
  go [] w
where
  /-- Looks for the equals sign behind some bytes of the name, given last first. -/
  go (name : Bytes) : Word → Option (Bytes × Word)
    | .byte b :: rest =>
      if b = code '=' then if isName name.reverse then some (name.reverse, rest) else none
      else if isNameByte b then go (b :: name) rest else none
    | _ => none

/-- A simple command as far as it has been read, its parts of each kind last first. -/
structure Parts where
  assignments : List (Bytes × Word) := []
  words : List Word := []
  redirects : List Redirect := []

/-- Reads on in a simple command, up to a token that does not belong to it. The fuel bounds the number of its
words. -/
def simpleParts (nested : Nested) : Nat → Parts → Reader Parts
  | 0, parts => return parts
  | fuel + 1, parts => do
    match ← token nested { aliases := parts.words.isEmpty } with
    | .word =>
      let w := (← get).word
      match parts.words, assignment? w with
      | [], some a => simpleParts nested fuel { parts with assignments := a :: parts.assignments }
      | _, _ => simpleParts nested fuel { parts with words := w :: parts.words }
    | .redirection descriptor direction dropTabs =>
      let r ← target nested descriptor direction dropTabs
      simpleParts nested fuel { parts with redirects := r :: parts.redirects }
    | _ => return parts

/-- Reads words up to another token, which is taken too. -/
def words (nested : Nested) : Nat → Reader (List Word)
  | 0 => return []
  | fuel + 1 => do
    match ← token nested with
    | .word =>
      let w := (← get).word
      return w :: (← words nested fuel)
    | _ => return []

/-- Reads the patterns of an arm after the token that begins the first one, up to a token that cannot go
between two. -/
def patterns (nested : Nested) : Nat → Reader (List Word)
  | 0 => return []
  | fuel + 1 => do
    let w := (← get).word
    if (← token nested) != .pipe then return [w]
    let _ ← token nested
    return w :: (← patterns nested fuel)

/-- Where a list of commands stands. -/
inductive Extent where
  /-- It is the script, of which one line is read. -/
  | line
  /-- It is part of a command. -/
  | part
  /-- It is part of a command, and may be empty. -/
  | optional
deriving DecidableEq, Repr

/-- A list of commands as it was read: the end of the script, or some commands. -/
inductive Listed where
  | ended
  | commands (c? : Option Command)

/-- The commands of a list. -/
def Listed.command? : Listed → Option Command
  | ended => none
  | commands c? => c?

/-- A command that is not waited for. -/
def inBackground : Command → Command
  | .pipeline parts _ => .pipeline parts true
  | .redirected line body redirects => .background (some line) body redirects
  | c => .background none c []

/-- A command after others. -/
def joined : Option Command → Command → Command
  | some before, c => .sequence before c
  | none, c => c

mutual

/-- How command substitutions are read. -/
def nestedReaders (fuel : Nat) : Nested :=
  match fuel with
  | 0 => ⟨throw .unterminatedQuotes, fun _ => throw .unterminatedQuotes⟩
  | fuel + 1 => {
      parenthesized := do
        let outer ← get
        set { outer with awaited := [], isBack := false }
        let c ← list fuel .optional none
        expect (nestedReaders fuel) .closing
        -- Documents whose text has not come by now are empty.
        modify fun r => { r with awaited := outer.awaited }
        return c.command?
      backquoted := fun text => do
        let outer ← get
        set { outer with source := .ofScript text, awaited := [], isBack := false }
        let c ← list fuel .optional none
        takeDocuments (nestedReaders fuel)
        modify fun r => { r with source := outer.source, awaited := outer.awaited, isBack := false }
        return c.command? }

/-- Reads a list of commands after some others. -/
def list (fuel : Nat) (extent : Extent) (before : Option Command) : Reader Listed :=
  match fuel with
  | 0 => throw .unterminatedQuotes
  | fuel + 1 => do
    let nested := nestedReaders fuel
    let finish : Reader Listed := do
      takeDocuments nested
      modify ({ · with last := .finish })
      putBack
      return if extent = .line && before.isNone then .ended else .commands before
    let t ← token nested { Checks.command with newlines := extent != .line }
    if t = .newline then
      takeDocuments nested
      return .commands before
    if t = .finish then return (← finish)
    putBack
    if t.endsList && (extent = .optional || (extent = .part && before.isSome)) then return .commands before
    let c ← andOr fuel
    let t ← token nested
    let all := joined before (if t = .ampersand then inBackground c else c)
    if t = .finish then
      takeDocuments nested
      modify ({ · with last := .finish })
      putBack
      return .commands all
    if t = .newline then
      putBack
      list fuel extent all
    else if t = .ampersand || t = .semicolon then list fuel extent all
    else
      if extent = .line then refuse
      putBack
      return .commands all

/-- Reads pipelines joined by `&&` and `||`. -/
def andOr (fuel : Nat) : Reader Command :=
  match fuel with
  | 0 => throw .unterminatedQuotes
  | fuel + 1 => do andOrAfter fuel (← pipeline fuel {})

/-- Reads on after a pipeline. -/
def andOrAfter (fuel : Nat) (left : Command) : Reader Command :=
  match fuel with
  | 0 => throw .unterminatedQuotes
  | fuel + 1 => do
    let t ← token (nestedReaders fuel)
    if t = .both || t = .either then
      let right ← pipeline fuel .command
      andOrAfter fuel (if t = .both then .both left right else .either left right)
    else
      putBack
      return left

/-- Reads commands joined by `|`. -/
def pipeline (fuel : Nat) (checks : Checks) : Reader Command :=
  match fuel with
  | 0 => throw .unterminatedQuotes
  | fuel + 1 => do
    let nested := nestedReaders fuel
    let isNegated := (← token nested checks) = .keyword .not
    if !isNegated then putBack
    let first ← command fuel (if isNegated then { keywords := true, aliases := true } else {})
    let more ← pipedTo fuel
    let c := if more.isEmpty then first else .pipeline (first :: more) false
    return if isNegated then .negated c else c

/-- Reads the commands that come next after signs of a pipe. -/
def pipedTo (fuel : Nat) : Reader (List Command) :=
  match fuel with
  | 0 => throw .unterminatedQuotes
  | fuel + 1 => do
    if (← token (nestedReaders fuel)) != .pipe then
      putBack
      return []
    let c ← command fuel .command
    return c :: (← pipedTo fuel)

/-- Reads one command. -/
def command (fuel : Nat) (checks : Checks) : Reader Command :=
  match fuel with
  | 0 => throw .unterminatedQuotes
  | fuel + 1 => do
    let nested := nestedReaders fuel
    let line := (← get).source.line
    let part : Reader Command := do return (← list fuel .part none).command?.getD default
    let t ← token nested checks
    let body : Command ← match t with
      | .keyword .if_ => do
        let body ← branches fuel
        expect nested (.keyword .fi)
        pure body
      | .keyword .while_ | .keyword .until_ => do
        let test ← part
        expect nested (.keyword .do_)
        let body ← part
        expect nested (.keyword .done)
        pure (.loop (t = .keyword .until_) test body)
      | .keyword .for_ => do
        let isWord := (← token nested) = .word
        let r ← get
        match if isWord && !r.isQuoted then r.word.plain? else none with
        | none => throw .badLoopName
        | some name =>
          if !isName name then throw .badLoopName
          let values ← do
            if (← token nested .command) = .keyword .in_ then
              let values ← words nested enough
              let last := (← get).last
              if last != .newline && last != .semicolon then refuse
              pure values
            else
              if (← get).last != .semicolon then putBack
              pure [[.quote, .parameter [code '@'] .value false [], .quote]]
          expect nested (.keyword .do_) .command
          let body ← part
          expect nested (.keyword .done)
          pure (.each line name values body)
      | .keyword .case => do
        expect nested .word
        let w := (← get).word
        expect nested (.keyword .in_) .command
        pure (.choose line w (← arms fuel))
      | .opening => do
        let body ← part
        expect nested .closing
        pure (.subshell line body [])
      | .keyword .opening => do
        let body ← part
        expect nested (.keyword .closing)
        pure body
      | .word | .redirection .. => do
        putBack
        return (← simple fuel)
      | _ => refuse
    match body, ← redirects nested { keywords := true, aliases := true } enough with
    | body, [] => return body
    | .subshell line body _, rs => return .subshell line body rs
    | body, rs => return .redirected line body rs

/-- Reads a conditional after a keyword that begins a test. -/
def branches (fuel : Nat) : Reader Command :=
  match fuel with
  | 0 => throw .unterminatedQuotes
  | fuel + 1 => do
    let nested := nestedReaders fuel
    let test := (← list fuel .part none).command?.getD default
    expect nested (.keyword .then_)
    let yes := (← list fuel .part none).command?.getD default
    match ← token nested with
    | .keyword .elif => return .conditional test yes (some (← branches fuel))
    | .keyword .else_ => return .conditional test yes (← list fuel .part none).command?
    | _ =>
      putBack
      return .conditional test yes none

/-- Reads the arms of a choice, up to its end. -/
def arms (fuel : Nat) : Reader (List Arm) :=
  match fuel with
  | 0 => throw .unterminatedQuotes
  | fuel + 1 => do
    let nested := nestedReaders fuel
    let t ← token nested .keyword
    if t = .keyword .esac then return []
    if t = .opening then
      let _ ← token nested
    let ps ← patterns nested enough
    if (← get).last != .closing then refuse (some .closing)
    let body? := (← list fuel .optional none).command?
    match ← token nested .keyword with
    | .keyword .esac => return [.mk ps body?]
    | .endArm => return .mk ps body? :: (← arms fuel)
    | _ => refuse (some .endArm)

/-- Reads a simple command, or a definition that begins like one. -/
def simple (fuel : Nat) : Reader Command :=
  match fuel with
  | 0 => throw .unterminatedQuotes
  | fuel + 1 => do
    let nested := nestedReaders fuel
    let line := (← get).source.line
    let parts ← simpleParts nested enough {}
    match (← get).last, parts with
    | .opening, ⟨[], [w], []⟩ =>
      expect nested .closing
      match w.plain? with
      | some name =>
        if !isName name || isSpecialCommand name then throw .badFunctionName
        let line := (← get).source.line
        return .define line name (← command fuel .command)
      | none => throw .badFunctionName
    | _, _ =>
      putBack
      return .simple line parts.assignments.reverse parts.words.reverse parts.redirects.reverse

end

/-- Reads one complete command, up to the end of its line. -/
def complete : Reader Listed := do
  modify fun r => { r with isBack := false, awaited := [] }
  list enough .line none

/-- Reads a text of its own, as if it stood in double quotes. -/
def quotedText : Reader Word := do
  return (← text (nestedReaders enough) .text .double).pieces

end ObjectTables.Shell.Reader
