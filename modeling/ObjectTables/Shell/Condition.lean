import ObjectTables.Shell.Variable
import ObjectTables.Shell.System
/-!
The conditions of `test`.

A condition is read from a list of arguments. What an argument is depends on those after it: an operator
that has nothing to work on stands for itself.
-/
namespace ObjectTables.Shell.Condition

/-- What an argument is by its spelling. -/
inductive Sign where
  | unary
  | binary
  | no
  | opening
  | closing
  | both
  | either
deriving DecidableEq, Repr

/-- The operators of one argument. -/
def unaryOperators : List String :=
  ["-e", "-f", "-d", "-s", "-r", "-w", "-x", "-n", "-z", "-t", "-h", "-L", "-c", "-b", "-p", "-u", "-g", "-k", "-O", "-G",
    "-S"]

/-- The operators of two arguments. -/
def binaryOperators : List String :=
  ["=", "!=", "<", ">", "-eq", "-ne", "-lt", "-le", "-gt", "-ge", "-nt", "-ot", "-ef"]

/-- What an argument is by its spelling, if it has a meaning at all. -/
def sign? (word : Bytes) : Option Sign :=
  let is (s : String) : Bool := word == Bytes.ofString s
  if unaryOperators.any is then some .unary
  else if binaryOperators.any is then some .binary
  else if is "!" then some .no
  else if is "(" then some .opening
  else if is ")" then some .closing
  else if is "-a" then some .both
  else if is "-o" then some .either
  else none

/-- What the first of some arguments is where it stands. An operator of one argument needs one, which is
not the operator of a comparison; a parenthesis opens only if something follows. -/
def first? : List Bytes → Option Sign
  | [] => none
  | word :: rest =>
    match sign? word with
    | some .unary =>
      match rest with
      | [] => none
      | [_] => some .unary
      | next :: _ => if sign? next = some .binary then none else some .unary
    | some .opening => if rest.isEmpty then none else some .opening
    | sign => sign

/-- A reader of a condition, which also decides it. -/
abbrev Reader (α : Type) := StateT (List Bytes) Act α

/-- Fails because of an argument, if there is one that shows. -/
def fail {α : Type} (word : Bytes) (why : String) : Act α :=
  Act.fail (if word.isEmpty then Bytes.ofString why else word ++ Bytes.ofString (": " ++ why))

/-- The next argument, which an operator needs. -/
def argument (operator : Bytes) : Reader Bytes := do
  match ← get with
  | [] => fail operator "argument expected"
  | word :: rest =>
    set rest
    return word

/-- Decides the operator of one argument. The user may do anything, but no file is a program. -/
def unary (operator word : Bytes) : Act Bool := do
  let found? := (← get).find? word
  match String.ofList (Bytes.decodeLossy operator) with
  | "-n" => return !word.isEmpty
  | "-z" => return word.isEmpty
  | "-t" => do
    let _ ← Number.decimalOf word
    return false
  | "-e" | "-r" | "-w" | "-O" | "-G" => return found?.isSome
  | "-d" => return match found? with
    | some (.entry _ .directory) | some (.outside .directory) => true
    | _ => false
  | "-x" => return match found? with
    | some (.entry _ .directory) | some (.outside .directory) | some (.outside .program) => true
    | _ => false
  | "-f" => return match found? with
    | some (.entry _ (.file _)) | some (.outside .program) => true
    | _ => false
  | "-s" => return match found? with
    | some (.entry _ (.file content)) => !content.isEmpty
    | some (.entry _ .directory) | some (.outside .directory) | some (.outside .program) => true
    | _ => false
  | "-c" => return match found? with
    | some (.outside .null) | some (.outside .full) => true
    | _ => false
  | "-p" => return match found? with
    | some (.outside (.descriptor _)) => true
    | _ => false
  | "-k" => return word == Bytes.ofString "/tmp"
  | _ => return false

/-- Decides a comparison. Numbers are decimal. No file is newer than another one. -/
def binary (left operator right : Bytes) : Act Bool := do
  let numbers (holds : Int → Int → Bool) : Act Bool := do
    return holds (← Number.decimalOf left) (← Number.decimalOf right)
  match String.ofList (Bytes.decodeLossy operator) with
  | "=" => return left == right
  | "!=" => return left != right
  | "<" => return Variable.precedes left right
  | ">" => return Variable.precedes right left
  | "-eq" => numbers (· == ·)
  | "-ne" => numbers (· != ·)
  | "-lt" => numbers (decide <| · < ·)
  | "-le" => numbers (decide <| · ≤ ·)
  | "-gt" => numbers (decide <| · > ·)
  | "-ge" => numbers (decide <| · ≥ ·)
  | "-ef" =>
    let m ← get
    let found? := m.find? left
    return found?.isSome && found? == m.find? right
  | _ => return false

mutual

/-- Decides conditions joined by `-o`. -/
def anyOf (fuel : Nat) : Reader Bool :=
  match fuel with
  | 0 => return false
  | fuel + 1 => do
    let left ← allOf fuel
    if first? (← get) != some .either then return left
    modify (·.drop 1)
    let right ← anyOf fuel
    return left || right

/-- Decides conditions joined by `-a`. -/
def allOf (fuel : Nat) : Reader Bool :=
  match fuel with
  | 0 => return false
  | fuel + 1 => do
    let left ← negation fuel
    if first? (← get) != some .both then return left
    modify (·.drop 1)
    let right ← allOf fuel
    return left && right

/-- Decides a condition that may be negated. -/
def negation (fuel : Nat) : Reader Bool :=
  match fuel with
  | 0 => return false
  | fuel + 1 => do
    if first? (← get) != some .no then return (← primary fuel)
    modify (·.drop 1)
    return !(← negation fuel)

/-- Decides a single condition. -/
def primary (fuel : Nat) : Reader Bool :=
  match fuel with
  | 0 => return false
  | fuel + 1 => do
    match ← get with
    | [] => return false
    | word :: rest =>
      match first? (word :: rest) with
      | some .opening =>
        set rest
        if first? rest = some .closing then
          set (rest.drop 1)
          return false
        let inside ← anyOf fuel
        if first? (← get) != some .closing then fail [] "closing paren expected"
        modify (·.drop 1)
        return inside
      | some .unary =>
        set rest
        unary word (← argument word)
      | _ =>
        set rest
        if first? rest != some .binary then return !word.isEmpty
        let operator ← argument word
        let right ← argument operator
        binary word operator right

end

/-- Decides some arguments that are a condition as a whole. If arguments are left over, the message names
the one before them. -/
def whole (arguments : List Bytes) : Act Bool := do
  let (holds, rest) ← (anyOf (4 * arguments.length + 4)).run arguments
  if rest.isEmpty then return holds
  fail ((arguments.take (arguments.length - rest.length)).getLast?.getD []) "unexpected operator"

/-- Decides the arguments of `test`. Three or four of them may be a comparison, or begin with a negation or
a parenthesis, before they are anything else. However many negations are found in this way, they count as
one. -/
def evaluate (isNegated : Bool) : List Bytes → Act Bool
  | [] => return isNegated
  | first :: rest => do
    let few := rest.length = 2 || rest.length = 3
    let holds ← match rest with
      | [operator, right] =>
        if sign? operator = some .binary then some <$> binary first operator right else pure none
      | _ => pure none
    match holds with
    | some holds => return holds != isNegated
    | none =>
      if few && first = Bytes.ofString "(" && rest.getLast? = some (Bytes.ofString ")") then
        return (← whole rest.dropLast) != isNegated
      else if few && first = Bytes.ofString "!" then evaluate true rest
      else return (← whole (first :: rest)) != isNegated

end ObjectTables.Shell.Condition
