import ObjectTables.Text.Line
/-!
The aliases of the compat header, which follow the generated part of the symbol header. The banner
comment of the compat header stays behind.
-/
namespace ObjectTables.Header

/-- Whether a line belongs to a banner comment: it opens one in its first column or continues one
with a star in its second. -/
def isBanner (line : Text) : Bool := ['/', '*'].isPrefixOf line || [' ', '*'].isPrefixOf line

/-- A text whose last line is ended: a line feed is added to an unfinished one. -/
def endLine (t : Text) : Text :=
  if t.isEmpty || t.getLast? == some '\n' then t else t ++ ['\n']

/-- The lines of a compat header outside its banner comment. -/
def aliases (compat : Text) : Text := ((Text.rawLines compat).filter (!isBanner ·)).flatten

/-- A header followed by the aliases of a compat header. -/
def appendAliases (header compat : Text) : Text := endLine header ++ aliases compat

end ObjectTables.Header
