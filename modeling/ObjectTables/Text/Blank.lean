/-!
Texts, and what blank space is in them.

A text is a list of characters, so that every operation on it is a recursion on that list. The blank
characters are the 25 of the Unicode property `White_Space`; the words of a text are its longest runs
of other characters.
-/
namespace ObjectTables

/-- The characters of a file, a line or a name, in order. -/
abbrev Text := List Char

namespace Text

/-- The Unicode property `White_Space`. -/
def isBlank (c : Char) : Bool :=
  let n := c.toNat
  (9 ≤ n && n ≤ 13) || n == 0x20 || n == 0x85 || n == 0xA0 || n == 0x1680 ||
    (0x2000 ≤ n && n ≤ 0x200A) || n == 0x2028 || n == 0x2029 || n == 0x202F || n == 0x205F ||
    n == 0x3000

/-- The blank characters that end a directive's keyword: tab, line feed, form feed, carriage return
and space. The vertical tab is blank, but not one of them. -/
def isDirectiveBlank (c : Char) : Bool :=
  c == ' ' || c == '\t' || c == '\n' || c == '\x0c' || c == '\r'

/-- A text without its leading blanks. -/
def trimStart (t : Text) : Text := t.dropWhile isBlank

/-- A text without its trailing blanks. -/
def trimEnd (t : Text) : Text := (t.reverse.dropWhile isBlank).reverse

/-- The words of a text: its longest runs without a blank, in order. -/
def words (t : Text) : List Text := (t.splitOnP isBlank).filter (fun w => !w.isEmpty)

/-- Whether `needle` occurs in a text as one run. -/
def contains (needle : Text) : Text → Bool
  | [] => needle.isEmpty
  | c :: rest => needle.isPrefixOf (c :: rest) || contains needle rest

/-- A directive blank is blank. -/
theorem isBlank_of_isDirectiveBlank {c : Char} (h : isDirectiveBlank c = true) : isBlank c = true := by
  simp only [isDirectiveBlank, Bool.or_eq_true, beq_iff_eq] at h
  rcases h with (((rfl | rfl) | rfl) | rfl) | rfl <;> decide

/-- `contains` decides the relation "is a run of". -/
theorem contains_iff {needle t : Text} : contains needle t = true ↔ needle <:+: t := by
  induction t with
  | nil => simp [contains]
  | cons c rest ih => simp [contains, ih, List.infix_cons_iff]

/-- No word is empty. -/
theorem ne_nil_of_mem_words {w t : Text} (h : w ∈ words t) : w ≠ [] := by
  have := (List.mem_filter.1 h).2
  simpa using this

end Text

end ObjectTables
