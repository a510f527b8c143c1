import ObjectTables.Shell.Double
/-!
What `echo` and `printf` write.

Escapes begin with a backslash. In the arguments of `echo` and of a `%b`, `\c` ends all output.
-/
namespace ObjectTables.Shell.Printing

/-- The value of a digit of base eight. -/
def octal? (b : UInt8) : Option Nat := if code '0' ≤ b && b ≤ code '7' then some (b.toNat - 48) else none

/-- The number that up to so many octal digits denote, and what follows them. -/
def octalNumber : Nat → Nat → Bytes → Nat × Bytes
  | n + 1, value, b :: rest =>
    match octal? b with
    | some d => octalNumber n (8 * value + d) rest
    | none => (value, b :: rest)
  | _, value, bytes => (value, bytes)

/-- The letters that stand behind a backslash for a byte. -/
def escapes : List (Char × UInt8) :=
  [('\\', 0x5C), ('a', 7), ('b', 8), ('e', 27), ('f', 12), ('n', 10), ('r', 13), ('t', 9), ('v', 11)]

/-- The byte that an escape stands for, given what follows the backslash, and the rest. A backslash that
begins no escape stands for itself. -/
def escape (bytes : Bytes) : UInt8 × Bytes :=
  match bytes with
  | [] => (code '\\', [])
  | b :: rest =>
    match octal? b with
    | some _ =>
      let (n, rest) := octalNumber 3 0 bytes
      (UInt8.ofNat n, rest)
    | none =>
      match escapes.find? fun (c, _) => code c == b with
      | some (_, value) => (value, rest)
      | none => (code '\\', bytes)

/-- Replaces the escapes in an argument, where an octal number may have a zero more before it; the
answer tells whether `\c` was met. The fuel bounds the number of bytes. -/
def unescape : Nat → Bytes → Bytes × Bool
  | 0, _ => ([], false)
  | _, [] => ([], false)
  | fuel + 1, b :: rest =>
    if b != code '\\' then
      let (after, ended) := unescape fuel rest
      (b :: after, ended)
    else match rest with
      | 0x63 :: _ => ([], true)
      | 0x30 :: digits =>
        let (n, rest) := octalNumber 3 0 digits
        let (after, ended) := unescape fuel rest
        (UInt8.ofNat n :: after, ended)
      | _ =>
        let (c, rest) := escape rest
        let (after, ended) := unescape fuel rest
        (c :: after, ended)

/-- What `echo` writes. -/
def echo (arguments : List Bytes) : Bytes :=
  let (newline, arguments) := match arguments with
    | [0x2D, 0x6E] :: rest => (false, rest)
    | _ => (true, arguments)
  let bytes := [code ' '].intercalate arguments
  let (output, ended) := unescape (bytes.length + 1) bytes
  if ended || !newline then output else output ++ [code '\n']

/-- What a conversion of `printf` says about its field. -/
structure Layout where
  left : Bool := false
  zeros : Bool := false
  plus : Bool := false
  space : Bool := false
  alternate : Bool := false
  width : Nat := 0
  precision? : Option Nat := none

/-- Why `printf` is not content with an argument. -/
inductive Complaint where
  | notNumeric (argument : Bytes)
  | notOnlyNumeric (argument : Bytes)
  | outOfRange (argument : Bytes)
deriving DecidableEq, Repr

/-- What `printf` says about a complaint. -/
def Complaint.message : Complaint → Bytes
  | notNumeric argument => argument ++ Bytes.ofString ": expected numeric value"
  | notOnlyNumeric argument => argument ++ Bytes.ofString ": not completely converted"
  | outOfRange argument => argument ++ Bytes.ofString ": Numerical result out of range"

/-- Why `printf` cannot go on. -/
inductive Fault where
  | invalidDirective (directive : Bytes)
  | noDirective
  | tooLarge
deriving DecidableEq, Repr

/-- What `printf` says about a fault. -/
def Fault.message : Fault → Bytes
  | invalidDirective directive => directive ++ Bytes.ofString ": invalid directive"
  | noDirective => Bytes.ofString "missing format character"
  | tooLarge => Bytes.ofString "xvsnprintf failed"

/-- `printf` on its way: what it has written, last first, the arguments that are left, whether it used one in
this round, what it complains about, why it cannot go on, and whether it has ended. -/
structure Progress where
  written : Bytes := []
  arguments : List Bytes
  usedOne : Bool := false
  complaints : List Complaint := []
  fault? : Option Fault := none
  ended : Bool := false

namespace Progress

/-- Writes some bytes. -/
def write (p : Progress) (bytes : Bytes) : Progress := { p with written := List.reverseAux bytes p.written }

/-- All that has been written. -/
def output (p : Progress) : Bytes := p.written.reverse

/-- The next argument, if there is one. -/
def take? (p : Progress) : Option Bytes × Progress :=
  match p.arguments with
  | [] => (none, p)
  | a :: rest => (some a, { p with arguments := rest, usedOne := true })

/-- The next argument, or nothing. -/
def take (p : Progress) : Bytes × Progress :=
  let (a?, p) := p.take?
  (a?.getD [], p)

/-- Adds a complaint. -/
def complain (p : Progress) (c : Complaint) : Progress := { p with complaints := p.complaints ++ [c] }

/-- Complains about an argument of which so much is left when a number has been read. -/
def check (p : Progress) (argument rest : Bytes) (isOut : Bool) : Progress :=
  if !rest.isEmpty then p.complain (.notOnlyNumeric argument)
  else if isOut then p.complain (.outOfRange argument) else p

/-- The next argument as a number, which is read in some way; `default` if there is none. An argument that
begins with a quote stands for the byte after it. -/
def takeNumber {α : Type} (p : Progress) (default : α) (ofByte : UInt8 → α) (read? : Bytes → Option (α × Bool × Bytes)) :
    α × Progress :=
  let (a, p) := p.take
  match a with
  | [] => (default, p)
  | q :: rest =>
    if q = code '\'' || q = code '"' then (ofByte (rest.head?.getD 0), p)
    else match read? a with
      | none => (default, p.complain (.notNumeric a))
      | some (value, isOut, rest) => (value, p.check a rest isOut)

/-- The next argument as a signed number. -/
def takeSigned (p : Progress) : Int × Progress :=
  p.takeNumber 0 (fun b => (b.toNat : Int)) fun a =>
    (Number.signed? true a).map fun (n, rest) => (Number.bounded n, n != Number.bounded n, rest)

/-- The number of 64-bit words. -/
def words : Int := 18446744073709551616

/-- The next argument as an unsigned number, to which a negative one is congruent. -/
def takeUnsigned (p : Progress) : Nat × Progress :=
  p.takeNumber 0 (·.toNat) fun a =>
    (Number.signed? true a).map fun (n, rest) =>
      let isOut := decide (words ≤ n) || decide (n ≤ -words)
      ((if isOut then words - 1 else n % words).toNat, isOut, rest)

/-- The next argument as a floating point number. -/
def takeDouble (p : Progress) : Double × Progress :=
  p.takeNumber ⟨false, .finite 0 0⟩ (fun b => ⟨false, .finite b.toNat 0⟩) Double.read?

end Progress

namespace Layout

/-- Fills a field up to its width. -/
def fill (l : Layout) (sign body : Bytes) (zeros : Bool) : Bytes :=
  let missing := l.width - (sign.length + body.length)
  if l.left then sign ++ body ++ List.replicate missing (code ' ')
  else if zeros then sign ++ List.replicate missing (code '0') ++ body
  else List.replicate missing (code ' ') ++ sign ++ body

/-- The sign of a number. -/
def signOf (l : Layout) (isNegative : Bool) : Bytes :=
  if isNegative then [code '-'] else if l.plus then [code '+'] else if l.space then [code ' '] else []

/-- The digits of a number in a base, filled up with zeros to the precision. -/
def digits (l : Layout) (base n : Nat) : Bytes :=
  if n = 0 && l.precision? = some 0 then [] else Double.padded base (l.precision?.getD 0) n

/-- The field of a signed number. -/
def signed (l : Layout) (n : Int) : Bytes :=
  l.fill (l.signOf (decide (n < 0))) (l.digits 10 n.natAbs) (l.zeros && l.precision?.isNone)

/-- Bytes with the small letters made capitals. -/
def capitals (bytes : Bytes) : Bytes := bytes.map fun b => if code 'a' ≤ b && b ≤ code 'z' then b - 32 else b

/-- The field of an unsigned number. -/
def unsigned (l : Layout) (letter : UInt8) (value : Nat) : Bytes :=
  let base := if letter = code 'o' then 8 else if letter = code 'u' then 10 else 16
  let digits := l.digits base value
  let digits := if l.alternate && base = 8 && digits.head? != some (code '0') then code '0' :: digits else digits
  let lead := if l.alternate && base = 16 && value != 0 then Bytes.ofString "0x" else []
  let field := l.fill lead digits (l.zeros && l.precision?.isNone)
  if letter = code 'X' then capitals field else field

/-- The style of a floating point number for a letter. -/
def style? (letter : UInt8) : Option Double.Style :=
  ([('f', .fixed), ('e', .scientific), ('g', .shorter), ('a', .hexadecimal)] : List (Char × Double.Style)).findSome?
    fun (c, s) => if code c == Double.small letter then some s else none

/-- The field of a floating point number. -/
def double (l : Layout) (letter : UInt8) (style : Double.Style) (n : Double) : Bytes :=
  let zeros := match n.magnitude with
    | .finite .. => l.zeros
    | _ => false
  let body := Double.text style l.alternate l.precision? n.magnitude
  -- The zeros that fill a hexadecimal number stand behind its `0x`.
  let (lead, body) := if Bytes.ofString "0x" |>.isPrefixOf body then (body.take 2, body.drop 2) else ([], body)
  let field := l.fill (l.signOf n.isNegative ++ lead) body zeros
  if letter < code 'a' then capitals field else field

end Layout

/-- Reads the flags of a conversion. -/
def readFlags : Layout → Bytes → Layout × Bytes
  | l, [] => (l, [])
  | l, b :: rest =>
    if b = code '-' then readFlags { l with left := true } rest
    else if b = code '0' then readFlags { l with zeros := true } rest
    else if b = code '+' then readFlags { l with plus := true } rest
    else if b = code ' ' then readFlags { l with space := true } rest
    else if b = code '#' then readFlags { l with alternate := true } rest
    else (l, b :: rest)

/-- The sizes that are too large for a field, from this one on. -/
def sizeLimit : Nat := 2147483648

/-- Reads a width or a precision, which a star takes from the arguments, as a number of 32 bits. -/
def readSize (p : Progress) (bytes : Bytes) : Int × Progress × Bytes :=
  match bytes with
  | 0x2A :: rest =>
    let (n, p) := p.takeSigned
    (n.bmod (2 * sizeLimit), p, rest)
  | _ =>
    let digits := bytes.takeWhile isDigit
    (decimal digits, p, bytes.drop digits.length)

/-- The bytes of a text that the precision leaves. -/
def Layout.cut (l : Layout) (bytes : Bytes) : Bytes :=
  match l.precision? with
  | some n => bytes.take n
  | none => bytes

/-- The field that a letter asks for, with its argument taken; `none` if the letter asks for no field. -/
def field? (l : Layout) (letter : UInt8) (p : Progress) : Option (Bytes × Progress) :=
  if letter = code 's' then
    let (a, p) := p.take
    some (l.fill [] (l.cut a) false, p)
  else if letter = code 'b' then
    let (a, p) := p.take
    let (a, ended) := unescape (a.length + 1) a
    some (l.fill [] (l.cut a) false, { p with ended := p.ended || ended })
  else if letter = code 'c' then
    -- An absent argument counts as a zero byte, and so does an empty one.
    let (a, p) := p.take
    some (l.fill [] [a.head?.getD 0] false, p)
  else if letter = code 'd' || letter = code 'i' then
    let (n, p) := p.takeSigned
    some (l.signed n, p)
  else if (Bytes.ofString "uoxX").contains letter then
    let (n, p) := p.takeUnsigned
    some (l.unsigned letter n, p)
  else match Layout.style? letter with
    | some style =>
      let (n, p) := p.takeDouble
      some (l.double letter style n, p)
    | none => none

/-- Does one conversion, given what follows its percent sign. -/
def convert (p : Progress) (start : Bytes) : Progress × Bytes :=
  let fail (p : Progress) (f : Fault) : Progress × Bytes := ({ p with fault? := some f, ended := true }, [])
  let (l, bytes) := readFlags {} start
  let (width, p, bytes) := readSize p bytes
  let (precision, p, bytes) := match bytes with
    | 0x2E :: rest => readSize p rest
    | _ => (-1, p, bytes)
  let isTooLarge := sizeLimit ≤ width.natAbs || (sizeLimit : Int) ≤ precision
  let l :=
    if isTooLarge then l
    else { l with
      left := l.left || width < 0
      width := width.natAbs
      precision? := if precision < 0 then none else some precision.toNat }
  match bytes with
  | [] => fail p .noDirective
  | letter :: rest =>
    match field? l letter p with
    | none => fail p (.invalidDirective (code '%' :: start.take (start.length - rest.length)))
    | some (field, p) =>
      if isTooLarge then fail p .tooLarge else (p.write field, rest)

/-- Goes through the format once. The fuel bounds the number of its bytes. -/
def round : Nat → Progress → Bytes → Progress
  | 0, p, _ => p
  | _, p, [] => p
  | fuel + 1, p, b :: rest =>
    if p.ended then p
    else if b = code '\\' then
      let (c, rest) := escape rest
      round fuel (p.write [c]) rest
    else if b = code '%' then
      match rest with
      | 0x25 :: rest => round fuel (p.write [code '%']) rest
      | _ =>
        let (p, rest) := convert p rest
        round fuel p rest
    else round fuel (p.write [b]) rest

/-- Goes through the format as long as a round uses up arguments and some are left. -/
def rounds (format : Bytes) : Nat → Progress → Progress
  | 0, p => p
  | fuel + 1, p =>
    let p := round (format.length + 1) { p with usedOne := false } format
    if p.ended || !p.usedOne || p.arguments.isEmpty then p else rounds format fuel p

/-- What `printf` makes of a format and arguments. -/
def printf (format : Bytes) (arguments : List Bytes) : Progress :=
  rounds format (arguments.length + 1) { arguments := arguments }

end ObjectTables.Shell.Printing
