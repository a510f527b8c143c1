import ObjectTables.Numbering
import ObjectTables.Proofs.Header.Completeness
import ObjectTables.Proofs.Text.LineEnd

/-! Line ends do not matter. A numbering and the definitions of a header are read off the trimmed lines of a text,
    and the aliases and the placeholders are put between lines, so what the lines of the result say is determined
    by what the lines of its parts say (`trimmedLines_appendAliases`, `trimmedLines_insert`). Headers whose lines
    say the same are therefore completed alike (`complete_congr`), with carriage returns or without. -/

namespace ObjectTables

namespace Text

/-! ### Marks at the end of a line -/

/-- Of a mark that ends in a character that is not blank, trimming takes nothing away. -/
theorem isPrefixOf_trimEnd {x : Text} {c : Char} (hc : isBlank c = false) (t : Text) :
    (x ++ [c]).isPrefixOf (trimEnd t) = (x ++ [c]).isPrefixOf t := by
  rw [Bool.eq_iff_iff, List.isPrefixOf_iff_prefix, List.isPrefixOf_iff_prefix]
  constructor
  · intro h
    obtain ⟨b, hb, -⟩ := exists_trimEnd_append t
    exact h.trans ⟨b, hb.symm⟩
  · rintro ⟨rest, rfl⟩
    rw [List.append_assoc, List.singleton_append, trimEnd_append_cons hc]
    exact ⟨trimEnd rest, by simp⟩

theorem contains_trimEnd {x : Text} {c : Char} (hc : isBlank c = false) (t : Text) :
    contains (x ++ [c]) (trimEnd t) = contains (x ++ [c]) t := by
  rw [Bool.eq_iff_iff, contains_iff, contains_iff]
  constructor
  · intro h
    obtain ⟨b, hb, -⟩ := exists_trimEnd_append t
    exact h.trans (List.IsPrefix.isInfix ⟨b, hb.symm⟩)
  · rintro ⟨before, after, rfl⟩
    have hcut : before ++ (x ++ [c]) ++ after = (before ++ x) ++ c :: after := by simp
    rw [hcut, trimEnd_append_cons hc]
    exact ⟨before, trimEnd after, by simp⟩

/-- A pass that reads each line without regard to its trailing blanks reads the trimmed lines. -/
theorem filterMap_lines {α : Type} {read : Text → Option α} (h : ∀ line, read (trimEnd line) = read line) (t : Text) :
    (lines t).filterMap read = (trimmedLines t).filterMap read := by
  rw [← map_trimEnd_lines, List.filterMap_map]
  exact congrArg (List.filterMap · _) (funext fun line => (h line).symm)

end Text

open Text

/-! ### Numberings -/

namespace Numbering

theorem readLine?_trimEnd (line : Text) : readLine? (trimEnd line) = readLine? line := by
  unfold readLine?
  rw [words_trimEnd]

theorem ofText_congr {t u : Text} (h : trimmedLines t = trimmedLines u) : ofText t = ofText u := by
  rw [ofText, filterMap_lines readLine?_trimEnd, h, ← filterMap_lines readLine?_trimEnd, ofText]

theorem listedSymbols_congr {t u : Text} (h : trimmedLines t = trimmedLines u) :
    listedSymbols t = listedSymbols u := by
  have hread : ∀ line, (words (trimEnd line)).head? = (words line).head? := fun line => by rw [words_trimEnd]
  rw [listedSymbols, filterMap_lines hread, h, ← filterMap_lines hread, listedSymbols]

end Numbering

namespace Header

/-! ### Headers -/

theorem definedNumbers_congr {t u : Text} (h : trimmedLines t = trimmedLines u) :
    definedNumbers t = definedNumbers u := by
  have hread : ∀ line, definedNumber? (trimEnd line) = definedNumber? line := fun line =>
    definedNumber?_congr (trimEnd_trimEnd line)
  rw [definedNumbers, filterMap_lines hread, h, ← filterMap_lines hread, definedNumbers]

theorem missingNumbers_congr {full full' trimmed trimmed' : Text} (hfull : trimmedLines full = trimmedLines full')
    (htrimmed : trimmedLines trimmed = trimmedLines trimmed') :
    missingNumbers full trimmed = missingNumbers full' trimmed' := by
  rw [missingNumbers, definedNumbers_congr hfull, definedNumbers_congr htrimmed, missingNumbers]

theorem isBanner_trimEnd (line : Text) : isBanner (trimEnd line) = isBanner line := by
  have hopens := isPrefixOf_trimEnd (x := ['/']) (c := '*') (by decide) line
  have hcontinues := isPrefixOf_trimEnd (x := [' ']) (c := '*') (by decide) line
  simp only [List.singleton_append] at hopens hcontinues
  rw [isBanner, hopens, hcontinues, isBanner]

theorem closesGuard_trimEnd (line : Text) : contains guardClose (trimEnd line) = contains guardClose line := by
  have hclose : guardClose = "#endif /* OPENSSL_OBJ_MAC_H *".toList ++ ['/'] := by decide +kernel
  rw [hclose, contains_trimEnd (by decide)]

theorem guarded_iff_trimmedLines {t : Text} :
    Guarded t ↔ ∃ line ∈ trimmedLines t, contains guardClose line = true := by
  constructor
  · rintro ⟨line, hline, hcloses⟩
    exact ⟨trimEnd line, List.mem_map_of_mem hline, by rw [closesGuard_trimEnd, hcloses]⟩
  · rintro ⟨_, hmem, hcloses⟩
    obtain ⟨line, hline, rfl⟩ := List.mem_map.mp hmem
    exact ⟨line, hline, by rw [← closesGuard_trimEnd, hcloses]⟩

/-- Ending the last line of a text adds nothing to what it says. -/
@[simp] theorem trimmedLines_endLine (t : Text) : trimmedLines (endLine t) = trimmedLines t := by
  unfold endLine
  split
  · rfl
  · next h =>
    obtain ⟨ls, l, hl, hl'⟩ := rawLines_append_newline fun he => h (ended_iff.mp he)
    have hline : trimEnd (l ++ ['\n']) = trimEnd l :=
      trimEnd_append_blanks (lineEnd_isBlank (Or.inr (Or.inl rfl))) l
    rw [trimmedLines, hl', trimmedLines, hl, List.map_append, List.map_append, List.map_singleton, List.map_singleton,
      hline]

theorem trimmedLines_aliases (compat : Text) :
    trimmedLines (aliases compat) = (trimmedLines compat).filter (!isBanner ·) := by
  rw [trimmedLines, rawLines_aliases, trimmedLines, List.filter_map]
  simp only [Function.comp_def, isBanner_trimEnd]

theorem trimmedLines_appendAliases (header compat : Text) : trimmedLines (appendAliases header compat) =
    trimmedLines header ++ (trimmedLines compat).filter (!isBanner ·) := by
  rw [appendAliases, trimmedLines_append (ended_endLine header), trimmedLines_endLine, trimmedLines_aliases]

/-- A block of whole lines comes before the first line that closes the guard, if there is one. -/
theorem trimmedLines_insert {block : Text} (hblock : Ended block) (t : Text) : trimmedLines (insert t block) =
    if Guarded t then (trimmedLines t).takeWhile (!contains guardClose ·) ++ trimmedLines block ++
      (trimmedLines t).dropWhile (!contains guardClose ·)
    else trimmedLines t := by
  split
  · next h =>
    obtain ⟨pre, post, rfl, hcut⟩ := h.exists_cut
    have hbefore : ∀ line ∈ trimmedLines pre, (!contains guardClose line) = true := fun line hline => by
      cases hc : contains guardClose line with
      | false => rfl
      | true => exact absurd (guarded_iff_trimmedLines.mpr ⟨line, hline, hc⟩) hcut.before
    obtain ⟨line, more, hpost, hline⟩ := hcut.first
    have hfirst : trimmedLines post = trimEnd line :: more.map trimEnd := by rw [trimmedLines, hpost, List.map_cons]
    have hcloses : contains guardClose (trimEnd line) = true := by rw [closesGuard_trimEnd, hline]
    rw [insert_cut hcut, trimmedLines_append (hcut.ended.append hblock), trimmedLines_append hcut.ended,
      trimmedLines_append hcut.ended, List.takeWhile_append_of_pos hbefore, List.dropWhile_append_of_pos hbefore,
      hfirst]
    simp [hcloses]
  · next h => rw [insert_of_not_guarded h]

/-- Headers whose lines say the same lack the same and are published alike. -/
theorem complete_congr {full full' trimmed trimmed' : Text} (hfull : trimmedLines full = trimmedLines full')
    (htrimmed : trimmedLines trimmed = trimmedLines trimmed') :
    (complete full trimmed).missing = (complete full' trimmed').missing ∧
      published (complete full trimmed).text = published (complete full' trimmed').text := by
  have hmissing := missingNumbers_congr hfull htrimmed
  have hguarded : Guarded trimmed ↔ Guarded trimmed' := by
    rw [guarded_iff_trimmedLines, htrimmed, ← guarded_iff_trimmedLines]
  refine ⟨hmissing, published_congr ?_⟩
  calc trimmedLines (insert trimmed (placeholders (missingNumbers full trimmed)))
      = trimmedLines (insert trimmed' (placeholders (missingNumbers full trimmed))) := by
        rw [trimmedLines_insert (ended_placeholders _), trimmedLines_insert (ended_placeholders _), htrimmed]
        simp only [hguarded]
    _ = trimmedLines (insert trimmed' (placeholders (missingNumbers full' trimmed'))) := by rw [hmissing]

/-- A text as some host writes it: with a carriage return put before each line feed, or as it is. -/
def hosted (returns : Bool) (t : Text) : Text := if returns then crlf t else t

theorem trimmedLines_hosted (returns : Bool) (t : Text) : trimmedLines (hosted returns t) = trimmedLines t := by
  cases returns with
  | false => rfl
  | true => exact trimmedLines_crlf t

/-- The line ends of a host change nothing: not what is missing from a header with its aliases, not what is
    published of it, and not what a numbering is read as, whichever of the texts have them. -/
theorem line_ends_change_nothing (full header compat : Text) (returns₁ returns₂ returns₃ : Bool) :
    let completed := complete full (appendAliases header compat)
    let hostedCompleted :=
      complete (hosted returns₁ full) (appendAliases (hosted returns₂ header) (hosted returns₃ compat))
    hostedCompleted.missing = completed.missing ∧
    published hostedCompleted.text = published completed.text ∧
    ∀ t, published (crlf t) = published t ∧ Numbering.ofText (crlf t) = Numbering.ofText t ∧
      Numbering.listedSymbols (crlf t) = Numbering.listedSymbols t := by
  intro completed hostedCompleted
  have hmerged : trimmedLines (appendAliases (hosted returns₂ header) (hosted returns₃ compat)) =
      trimmedLines (appendAliases header compat) := by
    simp only [trimmedLines_appendAliases, trimmedLines_hosted]
  obtain ⟨hmissing, htext⟩ := complete_congr (trimmedLines_hosted returns₁ full) hmerged
  refine ⟨hmissing, htext, fun t => ?_⟩
  have ht := trimmedLines_crlf t
  exact ⟨published_congr ht, Numbering.ofText_congr ht, Numbering.listedSymbols_congr ht⟩

end Header

end ObjectTables
