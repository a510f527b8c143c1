import ObjectTables.Text.Line
/-!
Numberings: which object has which number.

A numbering file has one object a line, its symbol and its number. The order of the objects matters,
so a trimmed numbering keeps it and only closes the gaps between the numbers.
-/
namespace ObjectTables

/-- An object of a numbering. -/
structure NumberedObject where
  symbol : Text
  id : UInt32
deriving DecidableEq, Repr

/-- Objects with their numbers, in the order that counts. -/
structure Numbering where
  objects : List NumberedObject
deriving DecidableEq, Repr

namespace Numbering

/-- The numbering file from which the candidates are numbered: nothing but the undefined object. -/
def seed : Text := "undef\t\t0".toList

/-- The symbols of a numbering, in order. -/
def symbols (n : Numbering) : List Text := n.objects.map (·.symbol)

/-- How many objects a numbering has. -/
def size (n : Numbering) : Nat := n.objects.length

/-- Whether a numbering has no object. -/
def isEmpty (n : Numbering) : Bool := n.objects.isEmpty

/-- Numbers symbols and the numbers they come with from 0 on: where a symbol has none, its position
counts. -/
def ofSymbols (symbols : List (Text × Option UInt32)) : Numbering :=
  ⟨symbols.zipIdx.map fun ((symbol, id?), position) => ⟨symbol, id?.getD (UInt32.ofNat position)⟩⟩

/-- The number that a word of ASCII digits denotes, with an optional plus sign before them, if it
fits 32 bits. -/
def readId? (word : Text) : Option UInt32 :=
  let digits := match word with
    | '+' :: rest => rest
    | _ => word
  if digits.isEmpty || !digits.all Char.isDigit then none
  else
    let value := Nat.ofDigitChars 10 digits 0
    if value < UInt32.size then some (UInt32.ofNat value) else none

/-- What a line of a numbering file says: its first word is a symbol, the second its number if it is
one. A line without a word says nothing. -/
def readLine? (line : Text) : Option (Text × Option UInt32) :=
  match Text.words line with
  | [] => none
  | [symbol] => some (symbol, none)
  | symbol :: id :: _ => some (symbol, readId? id)

/-- Reads a numbering file. Every text is one: an object whose line gives no number has its position
for it. -/
def ofText (t : Text) : Numbering := ofSymbols ((Text.lines t).filterMap readLine?)

/-- The symbols that a numbering file lists: the first word of each line that has one. -/
def listedSymbols (t : Text) : List Text := (Text.lines t).filterMap (fun line => (Text.words line).head?)

/-- The line of a numbering file for one object. -/
def lineOf (o : NumberedObject) : Text :=
  o.symbol ++ '\t' :: '\t' :: Nat.toDigits 10 o.id.toNat ++ ['\n']

/-- Writes a numbering file. -/
def toText (n : Numbering) : Text := n.objects.flatMap lineOf

/-- The objects of a numbering whose symbols are wanted, in their order and numbered from 0. -/
def trim (full : Numbering) (wanted : List Text) : Numbering :=
  ofSymbols ((full.symbols.filter (wanted.contains ·)).map (·, none))

@[simp] theorem symbols_ofSymbols (l : List (Text × Option UInt32)) : (ofSymbols l).symbols = l.map (·.1) := by
  calc (ofSymbols l).symbols = l.zipIdx.map (fun x => x.1.1) := by simp [ofSymbols, symbols, Function.comp_def]
    _ = (l.zipIdx.map Prod.fst).map (·.1) := by rw [List.map_map]; rfl
    _ = l.map (·.1) := by rw [List.zipIdx_map_fst]

/-- Trimming keeps exactly the wanted symbols, in their order. -/
@[simp] theorem symbols_trim (full : Numbering) (wanted : List Text) :
    (full.trim wanted).symbols = full.symbols.filter (wanted.contains ·) := by
  simp [trim, Function.comp_def]

end Numbering

end ObjectTables
