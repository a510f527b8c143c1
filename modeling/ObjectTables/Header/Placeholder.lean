import ObjectTables.Header.Definition
/-!
Placeholders for lost objects.

Code outside the trimmed tables may still name an object that they no longer hold. Each number macro
that the trimmed header has lost is therefore defined again, as the undefined object's, and with it
its short-name macro. The definitions go before the line that closes the include guard.
-/
namespace ObjectTables.Header

/-- The sixteen spaces between the name of a placeholder and its value. -/
def placeholderGap : Text := List.replicate 16 ' '

/-- The short-name macro that belongs to a number macro; another name stays as it is. -/
def shortName (name : Text) : Text :=
  match after? numberMark name with
  | some base => shortNameMark ++ base
  | none => name

/-- A line that defines one macro as another. -/
def placeholderLine (name value : Text) : Text :=
  "#define ".toList ++ name ++ placeholderGap ++ value ++ ['\n']

/-- The placeholders of one number macro. -/
def placeholder (name : Text) : Text :=
  placeholderLine name undefinedNumber ++ placeholderLine (shortName name) undefinedShortName

/-- The placeholders of number macros, in order. -/
def placeholders (names : List Text) : Text := names.flatMap placeholder

/-- Inserts a block before the first of some lines that closes the include guard; `none` if no line
does. -/
def insertAtGuard? (block : Text) : List Text → Option Text
  | [] => none
  | line :: rest =>
    if Text.contains guardClose line then some (block ++ line ++ rest.flatten)
    else (insertAtGuard? block rest).map (line ++ ·)

/-- Inserts a block before the first line that closes the include guard. An empty block changes
nothing; a text without such a line takes no block, for which the answer is `none`. -/
def insert? (t block : Text) : Option Text :=
  if block.isEmpty then some t else insertAtGuard? block (Text.rawLines t)

/-- `insert?`, with the text unchanged where there is no place for the block. -/
def insert (t block : Text) : Text := (insert? t block).getD t

/-- A header with placeholders, and the number macros that had been missing. -/
structure Completed where
  text : Text
  missing : List Text
deriving DecidableEq, Repr

/-- Completes a trimmed header with placeholders for what it lacks of the full one. -/
def complete (full trimmed : Text) : Completed :=
  let missing := missingNumbers full trimmed
  ⟨insert trimmed (placeholders missing), missing⟩

/-- Whether the placeholders that a trimmed header needs find no place in it. -/
def lacksGuard (full trimmed : Text) : Bool :=
  (insert? trimmed (placeholders (missingNumbers full trimmed))).isNone

@[simp] theorem insert_nil (t : Text) : insert t [] = t := by simp [insert, insert?]

end ObjectTables.Header
