import Mathlib.Data.List.Forall2
import ObjectTables.Proofs.Header.LineEnd

/-! A published text says what the text said. Its lines hold the same words (`words_published`), so a pass that reads
    words reads the same from it (`filterMap_lines_published`), and a mark without tabs stays in its line
    (`contains_expandTabs`). A numbering is read as it was, and a header defines the same and lacks the same. -/

namespace ObjectTables

namespace Text

/-- The published form of a line holds the same words. -/
theorem words_published (line : Text) : words (expandTabs 0 (trimEnd line)) = words line := by
  rw [words_expandTabs, words_trimEnd]

/-- A pass that reads nothing but the words of each line reads the same from the published text. -/
theorem filterMap_lines_published {α : Type} {read : Text → Option α}
    (hread : ∀ x y, words x = words y → read x = read y) (t : Text) :
    (lines (published t)).filterMap read = (lines t).filterMap read := by
  rw [lines_published, List.filterMap_map]
  exact congrArg (List.filterMap · _) (funext fun line => hread _ _ (words_published line))

theorem contains_expandTabs {mark t : Text} (hmark : '\t' ∉ mark) (h : contains mark t = true) (column : Nat) :
    contains mark (expandTabs column t) = true := by
  rw [contains_iff] at h ⊢
  obtain ⟨before, after, rfl⟩ := h
  rw [expandTabs_append, expandTabs_append, expandTabs_of_no_tab hmark]
  exact ⟨_, _, rfl⟩

end Text

open Text

theorem Numbering.ofText_published (t : Text) : ofText (published t) = ofText t := by
  have hread : ∀ x y, words x = words y → readLine? x = readLine? y := fun x y h => by
    rw [readLine?, h, readLine?]
  rw [ofText, filterMap_lines_published hread, ofText]

namespace Header

theorem closesGuard_published {line : Text} (h : contains guardClose line = true) :
    contains guardClose (expandTabs 0 (trimEnd line)) = true :=
  contains_expandTabs (by decide) (by rwa [closesGuard_trimEnd]) 0

theorem missingNumbers_published_full (full trimmed : Text) :
    missingNumbers (published full) trimmed = missingNumbers full trimmed := by
  rw [missingNumbers, definedNumbers_published, missingNumbers]

/-- A published text has as many lines as the text, each with the words of its line, and a line that closes an include
    guard still does. So the text defines the same numbers when it is published, a header lacks the same with either
    of the two published, and a numbering is read as it was. -/
theorem published_reads_alike (t full : Text) :
    (lines (published t)).length = (lines t).length ∧
    List.Forall₂ (fun line out => words out = words line ∧
      (contains guardClose line = true → contains guardClose out = true)) (lines t) (lines (published t)) ∧
    definedNumbers (published t) = definedNumbers t ∧
    missingNumbers full (published t) = missingNumbers full t ∧
    missingNumbers (published full) t = missingNumbers full t ∧
    Numbering.ofText (published t) = Numbering.ofText t := by
  refine ⟨?_, ?_, definedNumbers_published t, missingNumbers_published full t, missingNumbers_published_full full t,
    Numbering.ofText_published t⟩
  · rw [lines_published, List.length_map]
  · rw [lines_published, List.forall₂_map_right_iff, List.forall₂_same]
    exact fun line _ => ⟨words_published line, closesGuard_published⟩

theorem published_reads_alike_guard_after_tab :
    let line := "\t#endif /* OPENSSL_OBJ_MAC_H */\u2003x \t\r".toList
    contains guardClose line = true ∧ contains guardClose (expandTabs 0 (trimEnd line)) = true := by
  intro line
  have hlines : lines line = [line] := by decide
  have hclose : contains guardClose line = true := by decide
  have halike := (published_reads_alike line []).2.1
  rw [lines_published, hlines] at halike
  exact ⟨hclose, (List.forall₂_cons.mp halike).1.2 hclose⟩

end Header

end ObjectTables
