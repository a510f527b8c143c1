import ObjectTables.Text.Blank
/-!
The lines of a text.

A line ends after each line feed; what follows the last one, if anything, is a line too. `rawLines`
keeps the line ends, so nothing is lost (`flatten_rawLines`); `lines` drops them, and with a line feed
one carriage return before it.
-/
namespace ObjectTables.Text

/-- The lines of a text with their line ends. -/
def rawLines : Text → List Text
  | [] => []
  | c :: rest =>
    if c = '\n' then [c] :: rawLines rest
    else match rawLines rest with
      | [] => [[c]]
      | line :: more => (c :: line) :: more

/-- A line without its line end: a final line feed goes, and with it one carriage return before it.
A carriage return that no line feed follows stays. -/
def chomp (line : Text) : Text :=
  match line.reverse with
  | '\n' :: '\r' :: rest => rest.reverse
  | '\n' :: rest => rest.reverse
  | _ => line

/-- The lines of a text without their line ends. -/
def lines (t : Text) : List Text := (rawLines t).map chomp

@[simp] theorem rawLines_nil : rawLines [] = [] := rfl

/-- The lines with their ends make up the text. -/
@[simp] theorem flatten_rawLines (t : Text) : (rawLines t).flatten = t := by
  induction t with
  | nil => rfl
  | cons c rest ih =>
    unfold rawLines
    split
    · simp [ih]
    · split
      · next h => rw [h] at ih; simpa using congrArg (c :: ·) ih
      · next h => rw [h] at ih; simpa using congrArg (c :: ·) ih

end ObjectTables.Text
