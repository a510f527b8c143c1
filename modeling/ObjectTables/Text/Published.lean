import ObjectTables.Text.Line
/-!
The form in which generated text is published: each line loses its trailing blanks, its tabs become
spaces up to the next multiple of eight columns, and it ends in CR LF.
-/
namespace ObjectTables.Text

/-- Columns between tab stops. -/
def tabWidth : Nat := 8

/-- The end of a published line. -/
def lineEnd : Text := ['\r', '\n']

/-- Expands the tabs of a line that starts in `column`: a tab becomes spaces up to the next tab stop,
any other character takes one column. -/
def expandTabs (column : Nat) : Text → Text
  | [] => []
  | c :: rest =>
    if c = '\t' then
      let pad := tabWidth - column % tabWidth
      List.replicate pad ' ' ++ expandTabs (column + pad) rest
    else c :: expandTabs (column + 1) rest

/-- The published form of one line, given without its line end. -/
def publishedLine (line : Text) : Text := expandTabs 0 (trimEnd line) ++ lineEnd

/-- The published form of a text. -/
def published (t : Text) : Text := (lines t).flatMap publishedLine

@[simp] theorem published_nil : published [] = [] := rfl

end ObjectTables.Text
