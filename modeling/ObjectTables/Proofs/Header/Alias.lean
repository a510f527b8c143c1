import ObjectTables.Header.Alias
import ObjectTables.Proofs.Header.Difference

/-! Appending the aliases adds the definitions of the compat header to those of the header and loses none:
    the last line of the header is ended first, and no line of a banner comment defines anything. Headers of aliases
    can be appended one by one or as one text (`appendAliases_appendAliases`). -/

namespace ObjectTables.Header
open Text

theorem ended_iff {t : Text} : Ended t ↔ (t.isEmpty || t.getLast? == some '\n') = true := by
  simp [Ended, List.isEmpty_iff]

theorem ended_endLine (t : Text) : Ended (endLine t) := by
  unfold endLine
  split
  · next h => exact ended_iff.mpr h
  · exact ended_append_newline t

@[simp] theorem definedNumbers_endLine (t : Text) : definedNumbers (endLine t) = definedNumbers t := by
  unfold endLine
  split
  · rfl
  · next h =>
    obtain ⟨ls, l, hl, hl'⟩ := rawLines_append_newline fun he => h (ended_iff.mp he)
    have hline : definedNumber? (l ++ ['\n']) = definedNumber? l :=
      definedNumber?_congr (trimEnd_append_blanks (List.all_eq_true.mp (by decide)) l)
    rw [definedNumbers_eq, hl', definedNumbers_eq, hl, List.filterMap_append, List.filterMap_append]
    simp only [List.filterMap_cons, hline]

/-- A line of a banner comment begins with a slash or a star where a definition has its mark. -/
theorem definedNumber?_of_isBanner {line : Text} (h : isBanner line = true) : definedNumber? line = none := by
  unfold isBanner at h
  rw [Bool.or_eq_true, List.isPrefixOf_iff_prefix, List.isPrefixOf_iff_prefix] at h
  rcases h with ⟨rest, rfl⟩ | ⟨rest, rfl⟩ <;> rfl

theorem rawLines_aliases (compat : Text) : rawLines (aliases compat) = (rawLines compat).filter (!isBanner ·) :=
  ((lined_rawLines compat).sublist List.filter_sublist).rawLines_flatten

@[simp] theorem definedNumbers_aliases (compat : Text) : definedNumbers (aliases compat) = definedNumbers compat := by
  rw [definedNumbers_eq, rawLines_aliases, definedNumbers_eq, List.filterMap_filter]
  congr 1
  funext line
  split
  · rfl
  · next h => exact (definedNumber?_of_isBanner (by simpa using h)).symm

theorem definedNumbers_appendAliases (header compat : Text) :
    definedNumbers (appendAliases header compat) = definedNumbers header ++ definedNumbers compat := by
  rw [appendAliases, definedNumbers_append (ended_endLine header), definedNumbers_endLine, definedNumbers_aliases]

/-! ### The lines of a merged header -/

theorem isBanner_iff {line : Text} : isBanner line = true ↔ "/*".toList <+: line ∨ " *".toList <+: line := by
  simp [isBanner, List.isPrefixOf_iff_prefix]

theorem endLine_eq (t : Text) :
    endLine t = t ++ if t ≠ [] ∧ t.getLast? ≠ some '\n' then ['\n'] else [] := by
  unfold endLine
  by_cases hnil : t = []
  · simp [hnil]
  · by_cases hlast : t.getLast? = some '\n' <;> simp [hnil, hlast]

theorem endLine_of_ended {t : Text} (h : Ended t) : endLine t = t := by
  rw [endLine, if_pos (ended_iff.mp h)]

theorem ended_aliases {compat : Text} (h : Ended compat) : Ended (aliases compat) := by
  apply ended_flatten
  intro line hline
  exact h.getLast?_of_mem (List.mem_filter.mp hline).1

theorem aliases_append {a : Text} (h : Ended a) (b : Text) : aliases (a ++ b) = aliases a ++ aliases b := by
  rw [aliases, rawLines_append h, List.filter_append, List.flatten_append, aliases, aliases]

theorem appendAliases_appendAliases {compat : Text} (h : Ended compat) (header more : Text) :
    appendAliases (appendAliases header compat) more = appendAliases header (compat ++ more) := by
  have hended : Ended (appendAliases header compat) := (ended_endLine header).append (ended_aliases h)
  rw [appendAliases, endLine_of_ended hended, appendAliases, appendAliases, aliases_append h, List.append_assoc]

/-- A header with aliases is the header, a line feed if its last line is not ended, and the lines of the compat header
    that belong to no banner comment. It defines what the two define, in that order, and lacks of any other header what
    the header lacks, but for what the compat header defines. The aliases of two texts of whole lines can be appended
    one after the other. -/
theorem aliases_only_add (header compat full : Text) :
    let merged := appendAliases header compat
    let ended := header ++ if header ≠ [] ∧ header.getLast? ≠ some '\n' then ['\n'] else []
    let kept := (rawLines compat).filter fun line => ¬("/*".toList <+: line ∨ " *".toList <+: line)
    header <+: merged ∧
    merged = ended ++ kept.flatten ∧
    rawLines merged = rawLines ended ++ kept ∧
    definedNumbers kept.flatten = definedNumbers compat ∧
    definedNumbers merged = definedNumbers header ++ definedNumbers compat ∧
    missingNumbers full merged = (missingNumbers full header).filter (· ∉ definedNumbers compat) ∧
    ∀ more, compat = [] ∨ compat.getLast? = some '\n' →
      appendAliases merged more = appendAliases header (compat ++ more) := by
  intro merged ended kept
  have hended : endLine header = ended := endLine_eq header
  have hkept : kept = (rawLines compat).filter (!isBanner ·) := by
    apply List.filter_congr
    intro line _
    simp only [← isBanner_iff, Bool.not_eq_true, Bool.decide_eq_false]
  have hmerged : merged = ended ++ kept.flatten := by rw [← hended, hkept]; rfl
  have hdefined : definedNumbers merged = definedNumbers header ++ definedNumbers compat :=
    definedNumbers_appendAliases header compat
  refine ⟨?_, hmerged, ?_, ?_, hdefined, ?_, fun more h => appendAliases_appendAliases h header more⟩
  · rw [hmerged]
    exact (List.prefix_append _ _).trans (List.prefix_append _ _)
  · rw [hkept, ← rawLines_aliases, ← hended]
    exact rawLines_append (ended_endLine header) _
  · rw [hkept]
    exact definedNumbers_aliases compat
  · apply missingNumbers_of_defined
    simp [hdefined]

/-- The header ends in a carriage return, the first compat header in a banner line, and the second is not ended. -/
theorem aliases_only_add_after_return :
    let header := "#define NID_A 0\r".toList
    let compat := "/*\n * aliases\n */\n#define NID_B NID_A\r\n /*\n *\n".toList
    let more := "# define NID_C NID_A".toList
    compat.getLast? = some '\n' ∧
    appendAliases (appendAliases header compat) more = appendAliases header (compat ++ more) ∧
    appendAliases header (compat ++ more) =
      "#define NID_A 0\r\n#define NID_B NID_A\r\n /*\n# define NID_C NID_A".toList := by
  intro header compat more
  have hlast : compat.getLast? = some '\n' := by decide +kernel
  exact ⟨hlast, (aliases_only_add header compat []).2.2.2.2.2.2 more (Or.inr hlast), by decide +kernel⟩

end ObjectTables.Header
