import ObjectTables.Shell.Arithmetic
import ObjectTables.Shell.Pattern
/-!
Expanding words.

A word expands to strands: stretches of bytes, each of which is split into fields in its own way, with marks
where quotes were. The strands make fields, and a field that is a pattern makes the paths of the files that it
matches. Where a word stands for a single value, its strands are put together as they are. How a command
substitution runs its command is a parameter here.
-/
namespace ObjectTables.Shell.Expansion

/-- A part of an expanded word: a byte, which may be meant literally, or the place of quotes. The zero byte
stands between two parameters. -/
inductive Sign where
  | byte (b : UInt8) (isLiteral : Bool)
  | quote
deriving DecidableEq, Repr

/-- How a strand is split into fields. -/
inductive Splitting where
  /-- Not at all. -/
  | whole
  /-- At separators, as the text of an operand. -/
  | text
  /-- At separators, as a value. -/
  | value
  /-- Between parameters only. -/
  | apart
deriving DecidableEq, Repr

/-- A stretch of an expanded word. -/
structure Strand where
  splitting : Splitting
  signs : List Sign
deriving DecidableEq, Repr

/-- What a word is expanded for, and where the part of it stands that is expanded. -/
structure Setting where
  /-- Whether the word makes arguments, and is no single value. -/
  makesFields : Bool := false
  isQuoted : Bool := false
  isOperand : Bool := false
  /-- Whether a tilde means something at the start. -/
  hasTilde : Bool := false
  /-- Whether a tilde means something after colons, as in an assignment. -/
  isAssignment : Bool := false
  /-- Whether the word is an assignment whose equals sign is still to come. -/
  awaitsEquals : Bool := false

/-- A word that makes arguments. -/
def Setting.argument : Setting := { makesFields := true, hasTilde := true }

/-- A word for a single value. -/
def Setting.single : Setting := { hasTilde := true }

/-- The value in an assignment. -/
def Setting.assigned : Setting := { hasTilde := true, isAssignment := true }

/-- An assignment that is an argument. -/
def Setting.assignment : Setting := { isAssignment := true, awaitsEquals := true }

/-- A text as if in double quotes. -/
def Setting.quoted : Setting := { isQuoted := true }

/-! ### Parameters -/

/-- The parameter that stands for all parameters one by one. -/
def all : Bytes := [code '@']

/-- What stands between parameters that are put together. -/
def border (s : Setting) (isQuoted : Bool) (name : Bytes) (m : Machine) : Bytes :=
  let separators? := m.valueOf? (Bytes.ofString "IFS")
  if s.makesFields && isQuoted && name = all then [0]
  else match separators? with
    | none => [code ' ']
    | some separators => if s.makesFields && !isQuoted then [0] else separators.take 1

/-- The value of a parameter, if it has one. -/
def parameter? (s : Setting) (isQuoted : Bool) (name : Bytes) (m : Machine) : Option Bytes :=
  match name with
  | [] => none
  | b :: _ =>
    if b = code '$' then some (digitsOf Machine.mainProcess)
    else if b = code '?' then some (digitsOf m.status)
    else if b = code '#' then some (digitsOf m.parameters.length)
    else if b = code '!' then m.lastBackground?.map fun n => digitsOf n
    else if b = code '-' then some (Switch.letters m.switches)
    else if b = code '@' || b = code '*' then some ((border s isQuoted name m).intercalate m.parameters)
    else if isDigit b then
      match decimal name with
      | 0 => some m.name
      | n + 1 => m.parameters[n]?
    else m.valueOf? name

/-- The signs of a value. What means something in a pattern is literal in quotes. -/
def signsOf (isQuoted : Bool) (bytes : Bytes) : List Sign :=
  bytes.map fun b => .byte b (isQuoted && (isGuarded b || b == code '\\'))

/-- The strand of a value that takes the place of a parameter or a substitution. -/
def strandOf (isQuoted isApart : Bool) (bytes : Bytes) : Strand :=
  ⟨if !isQuoted then .value else if isApart then .apart else .whole, signsOf isQuoted bytes⟩

/-- The bytes of some strands. -/
def bytesOf (l : List Strand) : Bytes :=
  l.flatMap fun t => t.signs.filterMap fun
    | .byte b _ => some b
    | .quote => none

/-- The pattern that some signs are: what is literal stands behind a backslash, unless there is one before
it that means the same. -/
def patternOf (l : List Sign) : Bytes :=
  go false l
where
  /-- Goes on behind a byte, which may have been a backslash. -/
  go (escapes : Bool) : List Sign → Bytes
    | [] => []
    | .quote :: rest => go false rest
    | .byte b isLiteral :: rest =>
      if isLiteral then if escapes then b :: go false rest else code '\\' :: b :: go false rest
      else b :: go (b == code '\\') rest

/-- Puts a sign before some strands, into the first one if that is split in the same way. -/
def cons (splitting : Splitting) (sign : Sign) : List Strand → List Strand
  | ⟨.whole, signs⟩ :: rest =>
    if splitting = .whole then ⟨.whole, sign :: signs⟩ :: rest else ⟨splitting, [sign]⟩ :: ⟨.whole, signs⟩ :: rest
  | ⟨.text, signs⟩ :: rest =>
    if splitting = .text then ⟨.text, sign :: signs⟩ :: rest else ⟨splitting, [sign]⟩ :: ⟨.text, signs⟩ :: rest
  | l => ⟨splitting, [sign]⟩ :: l

/-! ### Tildes -/

/-- The users whose homes are known. -/
def homes : List (String × String) :=
  [("root", "/root"), ("daemon", "/usr/sbin"), ("bin", "/bin"), ("sys", "/dev"), ("nobody", "/nonexistent")]

/-- The name of a user after a tilde, if it is all plain bytes. -/
def user? (isAssignment : Bool) : List Piece → Option Bytes
  | [] => some []
  | .byte b :: rest =>
    if b = code '/' || (isAssignment && b = code ':') then some []
    else (user? isAssignment rest).map (b :: ·)
  | _ => none

/-- The home that a tilde before some pieces stands for, and how many of these are the user's name. -/
def home? (isAssignment : Bool) (m : Machine) (after : List Piece) : Option (Bytes × Nat) := do
  let user ← user? isAssignment after
  if user.isEmpty then return (← m.valueOf? (Bytes.ofString "HOME"), 0)
  let (_, home) ← homes.find? fun (name, _) => Bytes.ofString name == user
  return (Bytes.ofString home, user.length)

/-! ### Pieces -/

/-- Fails because a parameter has no value. -/
def failUnset {α : Type} (name message : Bytes) : Act α := Act.fail (name ++ Bytes.ofString ": " ++ message)

/-- What is said about a parameter without a value. -/
def notSet : String := "parameter not set"

/-- Bytes without the line feeds at their end. -/
def dropFinalNewlines (bytes : Bytes) : Bytes := (bytes.reverse.dropWhile (· == code '\n')).reverse

/-- Whether pieces go on with all parameters in the quotes that have begun. -/
def isAllQuoted : List Piece → Bool
  | .parameter name .value false _ :: .quote :: _ => name == all
  | _ => false

/-- Expands pieces. The first ones may be done already, a number of them; in quotes is what stands between
marks of quotes. -/
def strands (output : Command → Act Bytes) (s : Setting) (inQuotes : Bool) (done : Nat) :
    List Piece → Act (List Strand)
  | [] => return []
  | p :: rest => do
    match done with
    | done + 1 => strands output { s with hasTilde := false } inQuotes done rest
    | 0 =>
      let hasTilde := s.hasTilde
      let s := { s with hasTilde := false }
      let isQuoted := s.isQuoted || inQuotes
      let m ← get
      match p with
      | .byte b =>
        let splitting := if s.isOperand && !isQuoted then .text else .whole
        match if hasTilde && b = code '~' then home? s.isAssignment m rest else none with
        | some (home, n) => return ⟨.whole, signsOf true home⟩ :: (← strands output s inQuotes n rest)
        | none =>
          let isEquals := s.awaitsEquals && b = code '='
          let s := { s with
            hasTilde := isEquals || (s.isAssignment && b = code ':')
            awaitsEquals := s.awaitsEquals && !isEquals }
          return cons splitting (.byte b false) (← strands output s inQuotes 0 rest)
      | .literal b => return cons .whole (.byte b true) (← strands output s inQuotes 0 rest)
      | .quote =>
        -- Where there are no parameters, all of them in quotes make no field.
        if !inQuotes && isAllQuoted rest then
          let value := strandOf true (!m.parameters.isEmpty) ((parameter? s true all m).getD [])
          return value :: (← strands output s inQuotes 2 rest)
        return cons .whole .quote (← strands output s (!inQuotes) 0 rest)
      | .output script? =>
        let bytes ← match script? with
          | some c => output c
          | none => pure []
        let value := strandOf isQuoted false (dropFinalNewlines (bytes.filter (· != 0)))
        return value :: (← strands output s inQuotes 0 rest)
      | .sum expression =>
        let n ← Arithmetic.evaluate (bytesOf (← strands output {} false 0 expression))
        return strandOf isQuoted false (digitsOf n.toInt) :: (← strands output s inQuotes 0 rest)
      | .parameter name use orEmpty operand =>
        if use = .unknown then Act.failWith "Bad substitution"
        let value? := parameter? s isQuoted name m
        let isAbsent := value?.isNone || (orEmpty && value? = some [])
        let strandOf := strandOf isQuoted (name = all && !m.parameters.isEmpty)
        let itself := strandOf (value?.getD [])
        let inPlace : Act (List Strand) :=
          strands output { s with isQuoted := isQuoted, isOperand := true, hasTilde := true } false 0 operand
        let requireSet : Act Unit := do
          if isAbsent && m.isOn .noUnset then failUnset name (Bytes.ofString notSet)
        let l ← match use with
          | .unknown | .value => do
            requireSet
            pure (if value?.isSome then [itself] else [])
          | .length => do
            requireSet
            pure [strandOf (digitsOf (value?.getD []).length)]
          | .default => if isAbsent then inPlace else pure [itself]
          | .alternative => if isAbsent then pure [itself] else inPlace
          | .assign => do
            if !isAbsent then pure [itself]
            else
              Variable.assign name (some (bytesOf (← strands output .single false 0 operand)))
              pure [strandOf ((parameter? s isQuoted name (← get)).getD [])]
          | .require => do
            if !isAbsent then pure [itself]
            else
              let message := bytesOf (← strands output .single false 0 operand)
              let byDefault := if orEmpty then notSet ++ " or null" else notSet
              failUnset name (if operand.isEmpty then Bytes.ofString byDefault else message)
          | .cut fromEnd longest => do
            requireSet
            match value? with
            | none => pure []
            | some value =>
              let pattern := patternOf ((← strands output .single false 0 operand).flatMap (·.signs))
              pure [strandOf (match Pattern.cut? fromEnd longest pattern value with
                | none => value
                | some n => if fromEnd then value.take n else value.drop n)]
        if use = .value && orEmpty then
          -- Such an expansion takes what follows it as a text of its own, up to its brace, and ends the word.
          return l ++ (← strands output s inQuotes 0 operand)
        return l ++ (← strands output s inQuotes 0 rest)

/-! ### Fields -/

/-- A word that is split into fields, on the way. Signs and fields are given last first. -/
structure Split where
  fields : List (List Sign) := []
  field : List Sign := []
  /-- How many fields may still begin, if there is a bound. -/
  limit? : Option Nat := none
  /-- Whether the separator before was a blank, so that one that is no blank belongs to it. -/
  isBlank : Bool := false
  /-- Whether separators are passed over, behind a field. -/
  isPassing : Bool := false
  /-- Whether the strand is split between parameters only. -/
  isApart : Bool := false
  /-- Whether the strand before was. -/
  wasApart : Bool := false
  /-- How many signs at the end of the last field are cut off if nothing else follows. -/
  tail? : Option Nat := none

namespace Split

/-- Adds a sign to the field, and to its tail if it has one. -/
def push (t : Split) (sign : Sign) : Split :=
  { t with field := sign :: t.field, tail? := t.tail?.map (· + 1), isPassing := false }

/-- Goes past a sign of a strand that is split. -/
def take (separators : Bytes) (t : Split) (sign : Sign) : Split :=
  match sign with
  | .quote => t.push sign
  | .byte b _ =>
    let separates := b == 0 || (!t.isApart && separators.contains b)
    let blank := separates && (b == 0 || Machine.defaultSeparators.contains b)
    if t.limit? = some 0 then
      let after := t.push sign
      if blank then { after with tail? := some (after.tail?.getD 1) }
      else { after with tail? := if separates && t.isBlank then after.tail? else none, isBlank := false }
    else if t.isPassing && blank then t
    else if t.isPassing && separates && t.isBlank then { t with isBlank := false }
    else if !separates then t.push sign
    else
      let t := { t with isBlank := if t.wasApart || t.isApart then t.isBlank else blank, isPassing := false }
      if t.field.isEmpty && t.isBlank then { t with isBlank := false }
      else match t.limit? with
        | some 1 => { t.push sign with limit? := some 0, tail? := some 1 }
        | limit? =>
          { t with
            fields := t.field.reverse :: t.fields
            field := []
            limit? := limit?.map (· - 1)
            isPassing := !t.isApart && !t.wasApart }

/-- Goes past a strand. -/
def takeStrand (separators : Bytes) (t : Split) (strand : Strand) : Split :=
  match strand.splitting with
  | .whole => strand.signs.foldl push t
  | splitting =>
    strand.signs.foldl (take separators)
      { t with isPassing := false, isBlank := false, wasApart := t.isApart, isApart := splitting = .apart }

end Split

/-- The fields of some strands; there may be a bound for their number. -/
def fields (separators : Bytes) (limit? : Option Nat) (l : List Strand) : List (List Sign) :=
  let t := l.foldl (Split.takeStrand separators) { limit? := limit? }
  let last := (match if t.isApart then none else t.tail? with
    | some n => t.field.drop n
    | none => t.field).reverse
  (if last.isEmpty && !t.isApart then t.fields else last :: t.fields).reverse

/-! ### Files -/

/-- A pattern without the backslashes that take the meaning of the byte after them. -/
def unescaped : Bytes → Bytes
  | 0x5C :: b :: rest => b :: unescaped rest
  | b :: rest => b :: unescaped rest
  | [] => []

/-- Whether a set that begins behind a bracket ends before the next separator. -/
def closesSet : Nat → Bytes → Bool
  | 0, _ => false
  | fuel + 1, bytes =>
    let bytes := if bytes.head? = some (code '\\') then bytes.drop 1 else bytes
    match bytes with
    | [] => false
    | b :: rest =>
      if b = Path.separator then false else if rest.head? = some (code ']') then true else closesSet fuel rest

/-- The first step of a pattern of paths that has a meaning as a pattern: the text before it, the step, and
what follows the separator behind it. The fuel bounds the length of the pattern. -/
def firstWild? : Nat → Bytes → Bytes → Bool → Bytes → Option (Bytes × Bytes × Option Bytes)
  | 0, _, _, _, _ => none
  | fuel + 1, before, step, isWild, bytes =>
    match bytes with
    | [] => if isWild then some (before, step, none) else none
    | b :: rest =>
      let (taken, after) := match b, rest with
        | 0x5C, c :: rest => ([b, c], rest)
        | _, _ => ([b], rest)
      if taken.getLast? = some Path.separator then
        if isWild then some (before, step, some after)
        else firstWild? fuel (before ++ step ++ taken) [] false after
      else
        let starts := b = code '*' || b = code '?'
        let opens := b = code '[' &&
          closesSet (rest.length + 1) (if rest.head? = some (code '!') then rest.drop 1 else rest)
        firstWild? fuel before (step ++ taken) (isWild || starts || opens) after

/-- The names in the directory that a path leads to, the two that every directory has among them. -/
def namesIn (m : Machine) (p : Path) : List Name :=
  match m.tree.locate m.directory (if p.isEmpty then Path.here else p) with
  | .error _ => []
  | .ok l =>
    match m.tree.node? l with
    | some (.directory children) => Path.here :: Path.above :: children.map (·.1)
    | _ => []

/-- The paths below a directory that a pattern of paths matches. The fuel bounds the number of its steps. -/
def filesBelow (m : Machine) : Nat → Path → Bytes → List Path
  | 0, _, _ => []
  | fuel + 1, directory, pattern =>
    match firstWild? (pattern.length + 1) [] [] false pattern with
    | none =>
      let p := directory ++ unescaped pattern
      if !directory.isEmpty && m.tree.reaches m.directory p then [p] else []
    | some (before, step, after?) =>
      let directory := directory ++ unescaped before
      let wantsDot := (if step.head? = some (code '\\') then step.drop 1 else step).head? = some (code '.')
      let names := (namesIn m directory).filter fun name =>
        Pattern.accepts step name && (wantsDot || name.head? != some (code '.'))
      match after? with
      | none => names.map (directory ++ ·)
      | some after => names.flatMap fun name => filesBelow m fuel (directory ++ name ++ [Path.separator]) after

/-- A field as arguments: the files that it matches in their order, or itself if there are none. -/
def filesOr (m : Machine) (field : List Sign) : List Bytes :=
  let itself := field.filterMap fun
    | .byte b _ => some b
    | .quote => none
  let files :=
    if m.isOn .noPathnames || !itself.any Pattern.isMeta then []
    else
      let pattern := patternOf field
      filesBelow m (pattern.length + 1) [] pattern
  if files.isEmpty then [itself] else files.mergeSort fun a b => !Variable.precedes b a

/-! ### Words -/

/-- Expands a word to arguments. -/
def arguments (output : Command → Act Bytes) (w : Word) : Act (List Bytes) := do
  let l ← strands output .argument false 0 w
  let m ← get
  return (fields m.separators none l).flatMap (filesOr m)

/-- Expands a word to a single value. -/
def value (output : Command → Act Bytes) (s : Setting) (w : Word) : Act Bytes := do
  return bytesOf (← strands output s false 0 w)

/-- Expands a word to a pattern. -/
def pattern (output : Command → Act Bytes) (w : Word) : Act Bytes := do
  return patternOf ((← strands output .single false 0 w).flatMap (·.signs))

end ObjectTables.Shell.Expansion
