import ObjectTables.Shell.Number
/-!
Binary floating point numbers of 64 bits, as they are read from a text and written in one.

A finite number is kept as an integer and a power of two, and both reading and writing go by way of exact
fractions, so each of them rounds once, to the nearest and on a tie to the even one.
-/
namespace ObjectTables.Shell

/-- A number without its sign. -/
inductive Magnitude where
  /-- An integer of at most 53 bits times a power of two. -/
  | finite (mantissa : Nat) (exponent : Int)
  | infinite
  | nan
deriving DecidableEq, Repr

/-- A floating point number. -/
structure Double where
  isNegative : Bool
  magnitude : Magnitude
deriving DecidableEq, Repr

namespace Double

/-- A power of two. -/
def twoTo (n : Nat) : Nat := 1 <<< n

/-- A power of ten. -/
def tenTo (n : Nat) : Nat := Nat.pow 10 n

/-- The integer nearest to a fraction; of two that are, the even one. -/
def rounded (numerator denominator : Nat) : Nat :=
  let q := numerator / denominator
  let r := numerator % denominator
  if 2 * r < denominator || (2 * r == denominator && q % 2 == 0) then q else q + 1

/-- A fraction times a power of some base, as a fraction. -/
def scaled (power : Nat → Nat) (numerator denominator : Nat) (exponent : Int) : Nat × Nat :=
  if exponent < 0 then (numerator, denominator * power exponent.natAbs)
  else (numerator * power exponent.natAbs, denominator)

/-- The least exponent of two that there is. -/
def leastExponent : Int := -1074

/-- The number nearest to a fraction, and whether there is none in range. -/
def nearest (numerator denominator : Nat) : Magnitude × Bool :=
  if numerator = 0 then (.finite 0 0, false)
  else
    let guess : Int := (numerator.log2 : Int) - denominator.log2
    let (n, d) := scaled twoTo numerator denominator (-guess)
    let size := if n < d then guess - 1 else guess
    let exponent := max (size - 52) leastExponent
    let (n, d) := scaled twoTo numerator denominator (-exponent)
    let mantissa := rounded n d
    if 1024 < (mantissa.log2 : Int) + 1 + exponent then (.infinite, true)
    else (.finite mantissa exponent, mantissa < twoTo 52 && n % d != 0)

/-! ### Reading -/

/-- A byte with a capital made a small letter. -/
def small (b : UInt8) : UInt8 := if code 'A' ≤ b && b ≤ code 'Z' then b + 32 else b

/-- What follows a word at the start of some bytes, whatever the case of its letters. -/
def afterWord? (word : String) (bytes : Bytes) : Option Bytes :=
  if (Bytes.ofString word).isPrefixOf (bytes.map small) then some (bytes.drop word.length) else none

/-- The digits of a base with a point among them, as a number and how many of them are behind the point, how
many there are, and what follows. -/
def digitsWithPoint (base : Nat) (bytes : Bytes) : Nat × Nat × Nat × Bytes :=
  let count (before after : Bytes) : Nat := before.length - after.length
  let (whole, rest) := Number.digitsOfBase base 0 bytes
  match rest with
  | 0x2E :: fraction =>
    let (all, after) := Number.digitsOfBase base whole fraction
    let behind := count fraction after
    if count bytes rest + behind = 0 then (0, 0, 0, bytes) else (all, behind, count bytes rest + behind, after)
  | _ => (whole, 0, count bytes rest, rest)

/-- The exponent behind a letter, if there is one, and what follows. -/
def exponentAfter (letter : Char) (bytes : Bytes) : Int × Bytes :=
  match bytes with
  | b :: rest =>
    if small b != code letter then (0, bytes)
    else
      let (isNegative, digits) := match rest with
        | 0x2D :: digits => (true, digits)
        | 0x2B :: digits => (false, digits)
        | digits => (false, digits)
      if !digits.head?.any isDigit then (0, bytes)
      else
        let (n, after) := Number.digitsOfBase 10 0 digits
        (if isNegative then -(n : Int) else n, after)
  | [] => (0, bytes)

/-- An exponent beyond which there are no numbers, however many digits come before it. -/
def bounded (digits : Nat) (exponent : Int) : Int :=
  max (-(2000 + (digits : Int))) (min (2000 + digits) exponent)

/-- The number without a sign with which some bytes begin, whether it is out of range, and what follows. -/
def magnitude? (bytes : Bytes) : Option (Magnitude × Bool × Bytes) :=
  match afterWord? "infinity" bytes <|> afterWord? "inf" bytes with
  | some rest => some (.infinite, false, rest)
  | none =>
    match afterWord? "nan" bytes with
    | some rest => some (.nan, false, rest)
    | none =>
      match (afterWord? "0x" bytes).map (digitsWithPoint 16) with
      | some (n, behind, digits + 1, rest) =>
        let (e, rest) := exponentAfter 'p' rest
        let (numerator, denominator) := scaled twoTo n 1 (bounded (4 * digits) e - 4 * (behind : Int))
        let (m, isOut) := nearest numerator denominator
        some (m, isOut, rest)
      | _ =>
        match digitsWithPoint 10 bytes with
        | (_, _, 0, _) => none
        | (n, behind, digits, rest) =>
          let (e, rest) := exponentAfter 'e' rest
          let (numerator, denominator) := scaled tenTo n 1 (bounded digits e - (behind : Int))
          let (m, isOut) := nearest numerator denominator
          some (m, isOut, rest)

/-- The number with which some bytes begin after white space, whether it is out of range, and what
follows. -/
def read? (bytes : Bytes) : Option (Double × Bool × Bytes) :=
  let (isNegative, rest) := match bytes.dropWhile isSpace with
    | 0x2D :: rest => (true, rest)
    | 0x2B :: rest => (false, rest)
    | rest => (false, rest)
  (magnitude? rest).map fun (m, isOut, rest) => (⟨isNegative, m⟩, isOut, rest)

/-! ### Writing -/

/-- The ways of writing a number. -/
inductive Style where
  | fixed | scientific | shorter | hexadecimal
deriving DecidableEq, Repr

/-- Digits of a base, at least so many. -/
def padded (base count n : Nat) : Bytes :=
  let digits := Bytes.ofString (String.ofList (Nat.toDigits base n))
  List.replicate (count - digits.length) (code '0') ++ digits

/-- Digits with a point before the last ones. Without any behind it, the point is written if it is asked
for. -/
def pointed (keepsPoint : Bool) (behind : Nat) (digits : Bytes) : Bytes :=
  let split := digits.length - behind
  digits.take split ++ (if behind = 0 && !keepsPoint then [] else [code '.']) ++ digits.drop split

/-- Digits behind a point without the zeros at their end. -/
def trimmed (digits : Bytes) (behind : Nat) : Bytes × Nat :=
  let zeros := min behind ((digits.reverse.takeWhile (· == code '0')).length)
  (digits.take (digits.length - zeros), behind - zeros)

/-- An exponent behind its letter. -/
def exponentText (letter : Char) (count : Nat) (e : Int) : Bytes :=
  [code letter, code (if e < 0 then '-' else '+')] ++ padded 10 count e.natAbs

/-- The least number of times that a fraction below one must be multiplied by ten not to be below one. The
fuel bounds it. -/
def tenfold : Nat → Nat → Nat → Nat
  | 0, _, _ => 0
  | fuel + 1, numerator, denominator =>
    if numerator < denominator then tenfold fuel (10 * numerator) denominator + 1 else 0

/-- The digits of a fraction, one before and so many behind the point, and its power of ten. -/
def significant (behind numerator denominator : Nat) : Nat × Int :=
  if numerator = 0 then (0, 0)
  else
    let size : Int :=
      if numerator < denominator then -(tenfold 400 numerator denominator : Int)
      else ((Nat.toDigits 10 (numerator / denominator)).length : Int) - 1
    let (n, d) := scaled tenTo numerator denominator ((behind : Int) - size)
    let digits := rounded n d
    if tenTo (behind + 1) ≤ digits then (digits / 10, size + 1) else (digits, size)

/-- A finite number in hexadecimal digits. -/
def hexadecimalText (keepsPoint : Bool) (precision? : Option Nat) (mantissa : Nat) (exponent : Int) : Bytes :=
  let (mantissa, power) : Nat × Int :=
    if mantissa = 0 then (0, 0) else if mantissa < twoTo 52 && leastExponent < exponent then
      let shift := 52 - mantissa.log2
      (mantissa * twoTo shift, exponent - shift + 52)
    else (mantissa, exponent + 52)
  let (digits, behind) := match precision? with
    | none => trimmed (padded 16 14 mantissa) 13
    | some p =>
      if p < 13 then (padded 16 (p + 1) (rounded mantissa (twoTo (52 - 4 * p))), p)
      else (padded 16 14 mantissa ++ List.replicate (p - 13) (code '0'), p)
  Bytes.ofString "0x" ++ pointed keepsPoint behind digits ++ exponentText 'p' 1 power

/-- A number in some style without its sign. -/
def text (style : Style) (isAlternate : Bool) (precision? : Option Nat) : Magnitude → Bytes
  | .infinite => Bytes.ofString "inf"
  | .nan => Bytes.ofString "nan"
  | .finite mantissa exponent =>
    let precision := precision?.getD 6
    let (n, d) := scaled twoTo mantissa 1 exponent
    let fixed (behind : Nat) : Bytes := padded 10 (behind + 1) (rounded (n * tenTo behind) d)
    match style with
    | .fixed => pointed isAlternate precision (fixed precision)
    | .scientific =>
      let (digits, power) := significant precision n d
      pointed isAlternate precision (padded 10 (precision + 1) digits) ++ exponentText 'e' 2 power
    | .shorter =>
      let count := max 1 precision
      let (digits, power) := significant (count - 1) n d
      let trim (digits : Bytes) (behind : Nat) : Bytes × Nat :=
        if isAlternate then (digits, behind) else trimmed digits behind
      if -4 ≤ power && power < count then
        let (digits, behind) := trim (fixed (count - 1 - power).toNat) (count - 1 - power).toNat
        pointed isAlternate behind digits
      else
        let (digits, behind) := trim (padded 10 count digits) (count - 1)
        pointed isAlternate behind digits ++ exponentText 'e' 2 power
    | .hexadecimal => hexadecimalText isAlternate precision? mantissa exponent

end Double

end ObjectTables.Shell
