import ObjectTables.Text.Blank
/-!
The form in which a log shows text: characters that a terminal takes as orders are written as their codes.

These are five of the ASCII controls, among them the one that begins all longer orders, and the controls from
80 to 9F. Line ends, tabs and the other controls stay as they are.
-/
namespace ObjectTables.Text

/-- The ASCII controls that are orders to a terminal: bell, backspace, form feed, escape and delete. -/
def orders : List Char := ['\x07', '\x08', '\x0c', '\x1b', '\x7f']

/-- Whether a character is one of the controls above ASCII. -/
def isHighControl (c : Char) : Bool := 0x80 ≤ c.toNat && c.toNat ≤ 0x9F

/-- The two hexadecimal digits of a number below 256. -/
def twoDigits (n : Nat) : Text := [Nat.digitChar (n / 16), Nat.digitChar (n % 16)]

/-- The harmless form of a character. -/
def harmlessChar (c : Char) : Text :=
  if orders.contains c then '\\' :: 'x' :: twoDigits c.toNat
  else if isHighControl c then '\\' :: 'u' :: '\x7b' :: twoDigits c.toNat ++ ['\x7d']
  else [c]

/-- The harmless form of a text. -/
def harmless (t : Text) : Text := t.flatMap harmlessChar

end ObjectTables.Text
