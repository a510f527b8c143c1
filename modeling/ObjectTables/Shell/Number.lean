import ObjectTables.Shell.Machine
/-!
Numbers as they are written in arguments and variables.

A number is written with an optional sign after white space. Where the base is open, `0x` stands before
hexadecimal digits, `0b` before binary and `0` before octal ones. A number too large for 64 bits is read as the nearest that is
not.
-/
namespace ObjectTables.Shell.Number

/-- The value of a digit of a base up to sixteen. -/
def digit? (b : UInt8) : Option Nat :=
  if isDigit b then some (b.toNat - 48)
  else if code 'a' ≤ b && b ≤ code 'f' then some (b.toNat - 87)
  else if code 'A' ≤ b && b ≤ code 'F' then some (b.toNat - 55)
  else none

/-- The number that the digits of a base denote with which some bytes begin, and what follows them. -/
def digitsOfBase (base : Nat) : Nat → Bytes → Nat × Bytes
  | n, [] => (n, [])
  | n, b :: rest =>
    match digit? b with
    | some d => if d < base then digitsOfBase base (base * n + d) rest else (n, b :: rest)
    | none => (n, b :: rest)

/-- The natural number with which some bytes begin, and what follows it. -/
def unsigned? (isOpen : Bool) (bytes : Bytes) : Option (Nat × Bytes) :=
  match bytes with
  | [] => none
  | b :: rest =>
    if !isDigit b then none
    else if isOpen && b = code '0' then
      match rest with
      | x :: d :: _ =>
        if (x = code 'x' || x = code 'X') && (digit? d).isSome then some (digitsOfBase 16 0 (rest.drop 1))
        else if (x = code 'b' || x = code 'B') && (d = code '0' || d = code '1') then
          some (digitsOfBase 2 0 (rest.drop 1))
        else some (digitsOfBase 8 0 bytes)
      | _ => some (digitsOfBase 8 0 bytes)
    else some (digitsOfBase 10 0 bytes)

/-- The number with which some bytes begin after white space, and what follows it. -/
def signed? (isOpen : Bool) (bytes : Bytes) : Option (Int × Bytes) :=
  match bytes.dropWhile isSpace with
  | 0x2D :: rest => (unsigned? isOpen rest).map fun (n, r) => (-(n : Int), r)
  | 0x2B :: rest => (unsigned? isOpen rest).map fun (n, r) => ((n : Int), r)
  | rest => (unsigned? isOpen rest).map fun (n, r) => ((n : Int), r)

/-- The largest number. -/
def largest : Int := 9223372036854775807

/-- The smallest number. -/
def smallest : Int := -largest - 1

/-- The number nearest to another one between the smallest and the largest. -/
def bounded (n : Int) : Int := max smallest (min largest n)

/-- The number that all of some bytes denote, white space around it apart. Where the base is open, bytes
that are all white space denote zero. -/
def whole? (isOpen : Bool) (bytes : Bytes) : Option Int :=
  match signed? isOpen bytes with
  | some (n, rest) => if rest.all isSpace && n = bounded n then some n else none
  | none => if isOpen && bytes.all isSpace then some 0 else none

/-- The decimal number that all of some bytes denote; anything else is an error. -/
def decimalOf (bytes : Bytes) : Act Int :=
  match whole? false bytes with
  | some n => return n
  | none => Act.illegalNumber bytes

/-- The largest number of 32 bits. -/
def largestCount : Int := 2147483647

/-- The decimal number that all of some bytes denote if it is not negative and has 32 bits; anything else is
an error. -/
def countOf (bytes : Bytes) : Act Nat := do
  let n ← decimalOf bytes
  if n < 0 || largestCount < n then Act.illegalNumber bytes
  return n.toNat

end ObjectTables.Shell.Number
