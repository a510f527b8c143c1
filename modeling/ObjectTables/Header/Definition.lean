import ObjectTables.Text.Line
/-!
The macros that a symbol header defines, and those that a trimmed header has lost.
-/
namespace ObjectTables.Header

/-- How the names of number macros begin. -/
def numberMark : Text := "NID_".toList

/-- How the names of short-name macros begin. -/
def shortNameMark : Text := "SN_".toList

/-- The number macro of the undefined object. -/
def undefinedNumber : Text := "NID_undef".toList

/-- The short-name macro of the undefined object. -/
def undefinedShortName : Text := "SN_undef".toList

/-- The comment that closes a header's include guard. -/
def guardClose : Text := "#endif /* OPENSSL_OBJ_MAC_H */".toList

/-- The rest of a text after a mark it begins with. -/
def after? (mark t : Text) : Option Text := if mark.isPrefixOf t then some (t.drop mark.length) else none

/-- The macro that a line defines. Blanks may stand before `#`, after it and before the name; a
directive blank must follow the keyword. -/
def definedMacro? (line : Text) : Option Text := do
  let directive ← after? ['#'] (Text.trimStart line)
  let rest ← after? "define".toList (Text.trimStart directive)
  if rest.head?.any Text.isDirectiveBlank then (Text.words rest).head? else none

/-- The number macro that a line defines. -/
def definedNumber? (line : Text) : Option Text := (definedMacro? line).filter (numberMark.isPrefixOf ·)

/-- The number macros that a header defines, in the order of its lines. -/
def definedNumbers (t : Text) : List Text := (Text.lines t).filterMap definedNumber?

/-- The first occurrence of each member of a list, apart from those in `seen`. -/
def firstOccurrences (seen : List Text) : List Text → List Text
  | [] => []
  | n :: rest =>
    if seen.contains n then firstOccurrences seen rest else n :: firstOccurrences (n :: seen) rest

/-- The number macros that the full header defines and the trimmed one does not, each once and in the
order of the full header. The undefined object's is never missing. -/
def missingNumbers (full trimmed : Text) : List Text :=
  let present := definedNumbers trimmed
  firstOccurrences [] ((definedNumbers full).filter fun n => n != undefinedNumber && !present.contains n)

theorem after?_eq_some_iff {mark t rest : Text} : after? mark t = some rest ↔ t = mark ++ rest := by
  unfold after?
  split
  · next h =>
    obtain ⟨u, rfl⟩ := List.isPrefixOf_iff_prefix.1 h
    simp
  · next h =>
    simp only [reduceCtorEq, false_iff]
    rintro rfl
    exact h (List.isPrefixOf_iff_prefix.2 (List.prefix_append _ _))

end ObjectTables.Header
