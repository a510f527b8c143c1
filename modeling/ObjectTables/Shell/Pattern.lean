import ObjectTables.Shell.Script
/-!
Shell patterns: how they are matched against bytes.

A pattern is a byte sequence in which `*`, `?` and `[` have a meaning and a backslash takes the meaning of the
byte after it. Bytes are compared as signed numbers where a set spells a range.
-/
namespace ObjectTables.Shell.Pattern

/-- The classes of bytes that a set can name. -/
def classes : List (String × (UInt8 → Bool)) :=
  let lower (b : UInt8) : Bool := code 'a' ≤ b && b ≤ code 'z'
  let upper (b : UInt8) : Bool := code 'A' ≤ b && b ≤ code 'Z'
  let digit (b : UInt8) : Bool := code '0' ≤ b && b ≤ code '9'
  let letter (b : UInt8) : Bool := lower b || upper b
  let graphic (b : UInt8) : Bool := 0x21 ≤ b && b ≤ 0x7E
  [(":alnum:]", fun b => letter b || digit b), (":cntrl:]", fun b => b < 0x20 || b == 0x7F), (":lower:]", lower),
    (":space:]", isSpace), (":alpha:]", letter), (":digit:]", digit), (":print:]", fun b => b == 0x20 || graphic b),
    (":upper:]", upper), (":blank:]", fun b => b == 0x20 || b == 0x09), (":graph:]", graphic),
    (":punct:]", fun b => graphic b && !letter b && !digit b),
    (":xdigit:]", fun b => digit b || (code 'a' ≤ b && b ≤ code 'f') || (code 'A' ≤ b && b ≤ code 'F'))]

/-- The class that some bytes name after a bracket in a set, and what follows it. -/
def class? (pattern : Bytes) : Option ((UInt8 → Bool) × Bytes) :=
  (classes.find? fun (name, _) => (Bytes.ofString name).isPrefixOf pattern).map fun (name, holds) =>
    (holds, pattern.drop name.length)

/-- Reads on in a set after its first bytes, of which some may match. The answer tells whether the set holds
a byte and what follows the set; `none` if the set does not end. The fuel bounds its length. -/
def setAfter (b : UInt8) : Nat → Bool → Bytes → Option (Bool × Bytes)
  | 0, _, _ => none
  | _, _, [] => none
  | fuel + 1, found, c :: rest => do
    -- The first byte belongs to the set, whatever it is; a bracket after it ends the set.
    let goOn (found : Bool) (rest : Bytes) : Option (Bool × Bytes) :=
      match rest with
      | 0x5D :: after => some (found, after)
      | _ => setAfter b fuel found rest
    match if c = code '[' then class? rest else none with
    | some (holds, rest) => goOn (found || holds b) rest
    | none =>
      let (c, rest) ← match c, rest with
        | 0x5C, c :: rest => some (c, rest)
        | 0x5C, [] => none
        | _, _ => some (c, rest)
      match rest with
      | 0x2D :: high :: rest' =>
        if high = code ']' then goOn (found || b == c) rest
        else
          let (high, rest') ← match high, rest' with
            | 0x5C, high :: rest' => some (high, rest')
            | 0x5C, [] => none
            | _, _ => some (high, rest')
          goOn (found || (decide (c.toInt8 ≤ b.toInt8) && decide (b.toInt8 ≤ high.toInt8))) rest'
      | _ => goOn (found || b == c) rest

/-- Whether the set after a bracket accepts a byte, and what follows the set; `none` if the set does not
end. -/
def set? (b : UInt8) (pattern : Bytes) : Option (Bool × Bytes) :=
  match pattern with
  | 0x21 :: rest => (setAfter b (rest.length + 1) false rest).map fun (found, after) => (!found, after)
  | _ => setAfter b (pattern.length + 1) false pattern

/-- The ends of a byte sequence, longest first. -/
def suffixes : Bytes → List Bytes
  | [] => [[]]
  | b :: rest => (b :: rest) :: suffixes rest

/-- Whether a pattern matches a whole byte sequence. The fuel bounds the length of the pattern. -/
def acceptsWithin : Nat → Bytes → Bytes → Bool
  | _, [], bytes => bytes.isEmpty
  | 0, _, _ => false
  | fuel + 1, p :: rest, bytes =>
    if p = code '*' then
      let rest := rest.dropWhile (· == code '*')
      rest.isEmpty || (suffixes bytes).any (acceptsWithin fuel rest)
    else match bytes with
      | [] => false
      | b :: after =>
        if p = code '?' then acceptsWithin fuel rest after
        else if p = code '[' then
          match set? b rest with
          | some (accepted, rest') => accepted && acceptsWithin fuel rest' after
          | none => b == p && acceptsWithin fuel rest after
        else match p, rest with
          | 0x5C, q :: rest' => b == q && acceptsWithin fuel rest' after
          | _, _ => b == p && acceptsWithin fuel rest after

/-- Whether a pattern matches a whole byte sequence. -/
def accepts (pattern bytes : Bytes) : Bool := acceptsWithin (pattern.length + 1) pattern bytes

/-- Whether some bytes can mean something in a pattern. -/
def isMeta (b : UInt8) : Bool := b == code '*' || b == code '?' || b == code '['

/-- The length of the part at one end of a byte sequence that a pattern matches. A zero byte ends the
sequence. -/
def cut? (fromEnd longest : Bool) (pattern bytes : Bytes) : Option Nat :=
  let upToZero (l : Bytes) : Bytes := l.takeWhile (· != 0)
  let matched (n : Nat) : Bool := accepts pattern (upToZero (if fromEnd then bytes.drop n else bytes.take n))
  -- A search from the start does not go past a zero byte, one from the end does.
  let fromStart := List.range ((upToZero bytes).length + 1)
  let fromBack := (List.range (bytes.length + 1)).reverse
  (if fromEnd == longest then fromStart else fromBack).find? matched

end ObjectTables.Shell.Pattern
