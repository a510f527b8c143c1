import ObjectTables.Text.Blank
/-!
Bytes, and the text they encode in UTF-8.

One scanner reads a byte sequence into characters and ill-formed pieces; a piece is ill-formed and
maximal if no longer prefix of the bytes there starts a well-formed character. `decode?` accepts the
sequences without an ill-formed piece, `decodeLossy` writes U+FFFD for each.
-/
namespace ObjectTables

/-- File contents, paths and arguments. -/
abbrev Bytes := List UInt8

namespace Bytes

/-- A character that has begun: how many bytes it still needs, between which bounds the next one
lies, and the value of the bits so far. -/
structure Begun where
  owed : Nat
  low : UInt8
  high : UInt8
  value : Nat

/-- What a byte can be where a character starts. -/
inductive Lead where
  | whole (c : Char)
  | begins (b : Begun)
  | illFormed

/-- Reads the first byte of a character. The bounds on the second byte exclude overlong forms,
surrogates and values above U+10FFFF. -/
def lead (b : UInt8) : Lead :=
  let n := b.toNat
  if n < 0x80 then .whole (Char.ofNat n)
  else if n < 0xC2 then .illFormed
  else if n < 0xE0 then .begins ⟨1, 0x80, 0xBF, n % 32⟩
  else if n = 0xE0 then .begins ⟨2, 0xA0, 0xBF, n % 16⟩
  else if n = 0xED then .begins ⟨2, 0x80, 0x9F, n % 16⟩
  else if n < 0xF0 then .begins ⟨2, 0x80, 0xBF, n % 16⟩
  else if n = 0xF0 then .begins ⟨3, 0x90, 0xBF, n % 8⟩
  else if n < 0xF4 then .begins ⟨3, 0x80, 0xBF, n % 8⟩
  else if n = 0xF4 then .begins ⟨3, 0x80, 0x8F, n % 8⟩
  else .illFormed

/-- The characters of a byte sequence in order, with `none` for each maximal ill-formed piece. A byte
that does not continue the character begun ends that piece and starts the next character. -/
def scan : Option Begun → Bytes → List (Option Char)
  | none, [] => []
  | some _, [] => [none]
  | none, b :: rest =>
    match lead b with
    | .whole c => some c :: scan none rest
    | .begins begun => scan (some begun) rest
    | .illFormed => none :: scan none rest
  | some begun, b :: rest =>
    if begun.low ≤ b ∧ b ≤ begun.high then
      let value := begun.value * 64 + b.toNat % 64
      if begun.owed ≤ 1 then some (Char.ofNat value) :: scan none rest
      else scan (some ⟨begun.owed - 1, 0x80, 0xBF, value⟩) rest
    else
      none :: match lead b with
        | .whole c => some c :: scan none rest
        | .begins begun => scan (some begun) rest
        | .illFormed => none :: scan none rest

/-- The text that a byte sequence encodes, if all of it is well-formed. -/
def decode? (bytes : Bytes) : Option Text := (scan none bytes).mapM id

/-- The text of a byte sequence, with U+FFFD for each maximal ill-formed piece. -/
def decodeLossy (bytes : Bytes) : Text := (scan none bytes).map (·.getD '\uFFFD')

end Bytes

/-- The UTF-8 encoding of a text. -/
def Text.encode (t : Text) : Bytes := t.flatMap String.utf8EncodeChar

/-- The UTF-8 encoding of a string. -/
def Bytes.ofString (s : String) : Bytes := s.toUTF8.data.toList

end ObjectTables
