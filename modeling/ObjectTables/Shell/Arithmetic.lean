import ObjectTables.Shell.Variable
/-!
Arithmetic expansion: signed 64-bit integers that wrap.

An expression is evaluated while it is read. An operand that does not decide the value is read all the same,
but variables keep their values meanwhile and nothing is divided.
-/
namespace ObjectTables.Shell.Arithmetic

/-- The binary operators, those of truth apart. -/
inductive Operator where
  | times | divided | remainder | plus | minus | shiftLeft | shiftRight | below | atMost | above | atLeast
  | equal | unequal | bitAnd | bitXor | bitOr
deriving DecidableEq, Repr

/-- How loosely an operator binds its operands. -/
def Operator.looseness : Operator → Nat
  | times | divided | remainder => 0
  | plus | minus => 1
  | shiftLeft | shiftRight => 2
  | below | atMost | above | atLeast => 3
  | equal | unequal => 4
  | bitAnd => 5
  | bitXor => 6
  | bitOr => 7

/-- A part of an expression. -/
inductive Token where
  | number (n : Int64)
  | name (name : Bytes)
  | operator (o : Operator)
  /-- Gives a variable a value; with an operator, the one that comes of its old value. -/
  | assign (o? : Option Operator)
  | no | complement | both | either | question | colon | opening | closing
  /-- Nothing that belongs to an expression. -/
  | bad
deriving DecidableEq, Repr

/-- The spellings of the tokens that are signs, longest first. -/
def signs : List (String × Token) :=
  [("<<=", .assign (some .shiftLeft)), (">>=", .assign (some .shiftRight)), ("|=", .assign (some .bitOr)),
    ("^=", .assign (some .bitXor)), ("&=", .assign (some .bitAnd)), ("+=", .assign (some .plus)),
    ("-=", .assign (some .minus)), ("*=", .assign (some .times)), ("/=", .assign (some .divided)),
    ("%=", .assign (some .remainder)), ("||", .either), ("&&", .both), ("==", .operator .equal),
    ("!=", .operator .unequal), ("<<", .operator .shiftLeft), (">>", .operator .shiftRight), ("<=", .operator .atMost),
    (">=", .operator .atLeast), ("|", .operator .bitOr), ("^", .operator .bitXor), ("&", .operator .bitAnd),
    ("<", .operator .below), (">", .operator .above), ("+", .operator .plus), ("-", .operator .minus),
    ("*", .operator .times), ("/", .operator .divided), ("%", .operator .remainder), ("=", .assign none), ("!", .no),
    ("~", .complement), ("?", .question), (":", .colon), ("(", .opening), (")", .closing)]

/-- Whether a byte only separates tokens. -/
def isBlank (b : UInt8) : Bool := b == code ' ' || b == code '\t' || b == code '\n'

/-- The tokens of an expression, up to the first that is bad. The fuel bounds their number. -/
def tokens : Nat → Bytes → List Token
  | 0, _ => []
  | fuel + 1, bytes =>
    match bytes.dropWhile isBlank with
    | [] => []
    | b :: rest =>
      let bytes := b :: rest
      if isNameStart b then
        let name := bytes.takeWhile isNameByte
        .name name :: tokens fuel (bytes.drop name.length)
      else match Number.unsigned? true bytes with
        | some (n, rest) => .number (Int64.ofInt (Number.bounded n)) :: tokens fuel rest
        | none =>
          match signs.find? fun (s, _) => (Bytes.ofString s).isPrefixOf bytes with
          | some (s, t) => t :: tokens fuel (bytes.drop s.length)
          | none => [.bad]

/-- Why an expression has no value. -/
inductive Fault where
  | noPrimary
  | noEnd
  | noParenthesis
  | noColon
  | divisionByZero
deriving DecidableEq, Repr

/-- What the shell says about a fault in an expression. -/
def Fault.message (expression : Bytes) (f : Fault) : Bytes :=
  let why := match f with
    | noPrimary => "expecting primary"
    | noEnd => "expecting EOF"
    | noParenthesis => "expecting ')'"
    | noColon => "expecting ':'"
    | divisionByZero => "division by zero"
  Bytes.ofString s!"arithmetic expression: {why}: \"" ++ expression ++ [code '"']

/-- An expression that is read: its bytes, for messages, and the tokens that are left. -/
structure Reading where
  expression : Bytes
  tokens : List Token

/-- The evaluation of a part of an expression. -/
abbrev Evaluation (α : Type) := StateT Reading Act α

/-- Fails. -/
def fail {α : Type} (f : Fault) : Evaluation α := do
  Act.fail (f.message (← get).expression)

/-- The token that comes next. -/
def next? : Evaluation (Option Token) := do return (← get).tokens.head?

/-- Goes past the token that comes next. -/
def advance : Evaluation Unit := modify fun r => { r with tokens := r.tokens.drop 1 }

/-- The number for a truth value. -/
def ofBool (b : Bool) : Int64 := if b then 1 else 0

/-- The quotient of two numbers, or the remainder. One quotient is too large: its division kills. -/
def divide (a b : Int64) (quotient : Int64) : Evaluation Int64 := do
  if b = 0 then fail .divisionByZero
  if a = Int64.minValue && b = -1 then throw (.killed 8)
  return quotient

/-- Applies an operator. -/
def apply (a b : Int64) : Operator → Evaluation Int64
  | .times => return a * b
  | .divided => divide a b (a / b)
  | .remainder => divide a b (a % b)
  | .plus => return a + b
  | .minus => return a - b
  | .shiftLeft => return a <<< b
  | .shiftRight => return a >>> b
  | .below => return ofBool (decide (a < b))
  | .atMost => return ofBool (decide (a ≤ b))
  | .above => return ofBool (decide (b < a))
  | .atLeast => return ofBool (decide (b ≤ a))
  | .equal => return ofBool (a == b)
  | .unequal => return ofBool (a != b)
  | .bitAnd => return a &&& b
  | .bitXor => return a ^^^ b
  | .bitOr => return a ||| b

/-- The number in a variable. One without a value counts as zero. -/
def numberIn (name : Bytes) : Evaluation Int64 := do
  let value := ((← getThe Machine).valueOf? name).getD []
  match Number.whole? true value with
  | some n => return Int64.ofInt n
  | none => Act.illegalNumber value

mutual

/-- The value of an expression, which may be an assignment. Nothing but its end matters if it is idle. -/
def expression (fuel : Nat) (idle : Bool) : Evaluation Int64 :=
  match fuel with
  | 0 => fail .noPrimary
  | fuel + 1 => do
    match (← get).tokens with
    | .name name :: .assign o? :: rest =>
      modify ({ · with tokens := rest })
      let value ← expression fuel idle
      if idle then return value
      let new ← match o? with
        | none => pure value
        | some o => apply (← numberIn name) value o
      Variable.assign name (some (digitsOf new.toInt))
      return new
    | _ => choice fuel idle

/-- The value of an expression that is no assignment. -/
def choice (fuel : Nat) (idle : Bool) : Evaluation Int64 :=
  match fuel with
  | 0 => fail .noPrimary
  | fuel + 1 => do
    let test ← anyOf fuel idle
    if (← next?) != some .question then return test
    advance
    let yes ← expression fuel (idle || test == 0)
    if (← next?) != some .colon then fail .noColon
    advance
    let no ← choice fuel (idle || test != 0)
    return if test != 0 then yes else no

/-- The value of conditions joined by `||`. -/
def anyOf (fuel : Nat) (idle : Bool) : Evaluation Int64 :=
  match fuel with
  | 0 => fail .noPrimary
  | fuel + 1 => do
    let left ← allOf fuel idle
    if (← next?) != some .either then return left
    advance
    let right ← anyOf fuel (idle || left != 0)
    return ofBool (left != 0 || right != 0)

/-- The value of conditions joined by `&&`. -/
def allOf (fuel : Nat) (idle : Bool) : Evaluation Int64 :=
  match fuel with
  | 0 => fail .noPrimary
  | fuel + 1 => do
    let left ← continued fuel idle 8 (← operand fuel idle)
    if (← next?) != some .both then return left
    advance
    let right ← allOf fuel (idle || left == 0)
    return ofBool (left != 0 && right != 0)

/-- The value that operators less loose than that make of a left operand. -/
def continued (fuel : Nat) (idle : Bool) (looseness : Nat) (left : Int64) : Evaluation Int64 :=
  match fuel with
  | 0 => fail .noPrimary
  | fuel + 1 => do
    match ← next? with
    | some (.operator o) =>
      if looseness ≤ o.looseness then return left
      advance
      let right ← continued fuel idle o.looseness (← operand fuel idle)
      continued fuel idle looseness (← if idle then pure right else apply left right o)
    | _ => return left

/-- The value of an operand. -/
def operand (fuel : Nat) (idle : Bool) : Evaluation Int64 :=
  match fuel with
  | 0 => fail .noPrimary
  | fuel + 1 => do
    let t? ← next?
    advance
    match t? with
    | some .opening =>
      let inside ← expression fuel idle
      if (← next?) != some .closing then fail .noParenthesis
      advance
      return inside
    | some (.number n) => return n
    | some (.name name) => if idle then return 0 else numberIn name
    | some (.operator .plus) => operand fuel idle
    | some (.operator .minus) => return -(← operand fuel idle)
    | some .no => return ofBool ((← operand fuel idle) == 0)
    | some .complement => return ~~~(← operand fuel idle)
    | _ => fail .noPrimary

end

/-- Evaluates the expression that some bytes spell. -/
def evaluate (bytes : Bytes) : Act Int64 := do
  let all := tokens (bytes.length + 1) bytes
  let (value, r) ← (expression (8 * all.length + 8) false).run ⟨bytes, all⟩
  if !r.tokens.isEmpty then Act.fail (Fault.noEnd.message bytes)
  return value

end ObjectTables.Shell.Arithmetic
