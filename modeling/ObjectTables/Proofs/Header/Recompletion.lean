import Mathlib.Data.List.Nodup
import ObjectTables.Proofs.Header.Completeness

/-! Completing a header again. No placeholder looks like the line that closes the include guard, so that line is still
    the first of its kind in a completed header (`GuardCut.extend`). Every missing number is defined once then, before
    that line, and none is missing any more, so another completion has nothing to add (`complete_again`). -/

namespace ObjectTables.Header
open Text

/-! ### The guard -/

theorem words_placeholderLine {name value : Text} (hne : name ≠ []) (hname : ∀ c ∈ name, isBlank c = false)
    (hne' : value ≠ []) (hvalue : ∀ c ∈ value, isBlank c = false) :
    words (placeholderLine name value) = ["#define".toList, name, value] := by
  have hspread (start gap : Text) : start ++ [' '] ++ name ++ ' ' :: gap ++ value ++ ['\n'] =
      start ++ ' ' :: (name ++ ' ' :: (gap ++ (value ++ ['\n']))) := by simp
  have hline : placeholderLine name value =
      "#define".toList ++ ' ' :: (name ++ ' ' :: (List.replicate 15 ' ' ++ (value ++ ['\n']))) :=
    hspread "#define".toList (List.replicate 15 ' ')
  have hvalues : words (List.replicate 15 ' ' ++ (value ++ ['\n'])) = [value] := by
    rw [words_blanks_append (List.all_eq_true.mp (by decide)), words_append_blanks (List.all_eq_true.mp (by decide)),
      words_of_forall_not hne' hvalue]
  rw [hline, words_append_blank (by decide), words_append_blank (by decide), hvalues, words_of_forall_not hne hname,
    words_of_forall_not (by decide) (not_isBlank_of_all (by decide))]
  rfl

/-- The comment in the line that closes the guard begins with a word of its own. -/
theorem mem_words_of_closes {line : Text} (h : contains guardClose line = true) : "/*".toList ∈ words line := by
  obtain ⟨a, b, rfl⟩ := contains_iff.mp h
  have hclose : guardClose = "#endif".toList ++ ' ' :: ("/*".toList ++ ' ' :: "OPENSSL_OBJ_MAC_H */".toList) := by
    decide +kernel
  have hline : a ++ guardClose ++ b =
      a ++ "#endif".toList ++ ' ' :: ("/*".toList ++ ' ' :: ("OPENSSL_OBJ_MAC_H */".toList ++ b)) := by
    rw [hclose]
    simp only [List.append_assoc, List.cons_append]
  have hcomment : words "/*".toList = ["/*".toList] := by
    exact words_of_forall_not (by decide) (not_isBlank_of_all (by decide))
  rw [hline, words_append_blank (by decide), words_append_blank (by decide), hcomment]
  simp

theorem not_guarded_placeholderLine {name value : Text} (hname : ∀ c ∈ name, isBlank c = false)
    (hmark : (∃ s, name = numberMark ++ s) ∨ ∃ s, name = shortNameMark ++ s)
    (hvalue : value = undefinedNumber ∨ value = undefinedShortName) : ¬Guarded (placeholderLine name value) := by
  have hvalues : value ≠ [] ∧ (∀ c ∈ value, isBlank c = false) ∧ '\n' ∉ value ∧ "/*".toList ≠ value := by
    rcases hvalue with rfl | rfl
    · exact ⟨by decide, not_isBlank_of_all (by decide), by decide, by decide⟩
    · exact ⟨by decide, not_isBlank_of_all (by decide), by decide, by decide⟩
  have hnames : name ≠ [] ∧ "/*".toList ≠ name := by
    rcases hmark with ⟨s, rfl⟩ | ⟨s, rfl⟩
    · simp [numberMark_eq]
    · simp [shortNameMark_eq]
  obtain ⟨x, hn, -, hline, -⟩ := placeholderLine_eq hname value
  have hraw : rawLines (placeholderLine name value) = [placeholderLine name value] := by
    rw [hline]
    exact rawLines_line (by simp [hn, hvalues.2.2.1]) '\n'
  rintro ⟨line, hmem, hcloses⟩
  rw [hraw, List.mem_singleton] at hmem
  have hword := mem_words_of_closes hcloses
  rw [hmem, words_placeholderLine hnames.1 hname hvalues.1 hvalues.2.1] at hword
  simp only [List.mem_cons, List.not_mem_nil, or_false] at hword
  rcases hword with hword | hword | hword
  · exact absurd hword (by decide)
  · exact hnames.2 hword
  · exact hvalues.2.2.2 hword

theorem not_guarded_placeholders {names : List Text}
    (h : ∀ n ∈ names, (∃ s, n = numberMark ++ s) ∧ ∀ c ∈ n, isBlank c = false) : ¬Guarded (placeholders names) := by
  induction names with
  | nil => simp [Guarded, placeholders]
  | cons n names ih =>
    obtain ⟨⟨s, rfl⟩, hblank⟩ := h n List.mem_cons_self
    have hnumber := not_guarded_placeholderLine hblank (Or.inl ⟨s, rfl⟩) (Or.inl rfl)
    have hshortName :=
      not_guarded_placeholderLine (shortName_not_isBlank hblank) (Or.inr ⟨s, shortName_number s⟩) (Or.inr rfl)
    rw [placeholders, List.flatMap_cons, guarded_append_iff (ended_placeholder _), placeholder,
      guarded_append_iff (ended_placeholderLine _ _)]
    rintro ((hg | hg) | hg)
    · exact hnumber hg
    · exact hshortName hg
    · exact ih (fun m hm => h m (List.mem_cons_of_mem _ hm)) hg

/-- What is put before the line that closes the guard leaves it the first one that does. -/
theorem GuardCut.extend {pre post block : Text} (h : GuardCut pre post) (hended : Ended block)
    (hblock : ¬Guarded block) : GuardCut (pre ++ block) post where
  ended := h.ended.append hended
  before := by
    rw [guarded_append_iff h.ended]
    exact not_or.mpr ⟨h.before, hblock⟩
  first := h.first

/-! ### Completed headers -/

theorem missingNumbers_complete_of_guarded {trimmed : Text} (full : Text) (h : Guarded trimmed) :
    missingNumbers full (complete full trimmed).text = [] :=
  missingNumbers_eq_nil_iff.mpr fun _ => mem_complete_of_full h

theorem complete_of_missingNumbers_eq_nil {full trimmed : Text} (h : missingNumbers full trimmed = []) :
    (complete full trimmed).text = trimmed := by simp [complete, h, placeholders]

theorem count_missing {n full pre post : Text} (h : GuardCut pre post)
    (hn : n ∈ (complete full (pre ++ post)).missing) :
    (definedNumbers (complete full (pre ++ post)).text).count n = 1 ∧ n ∉ definedNumbers post := by
  obtain ⟨-, -, habsent⟩ := mem_missingNumbers.mp hn
  rw [definedNumbers_append h.ended, List.mem_append, not_or] at habsent
  have honce : (complete full (pre ++ post)).missing.count n = 1 :=
    List.count_eq_one_of_mem (nodup_missingNumbers full _) hn
  rw [definedNumbers_complete_cut h, List.count_append, List.count_append, honce, List.count_eq_zero.mpr habsent.1,
    List.count_eq_zero.mpr habsent.2]
  exact ⟨rfl, habsent.2⟩

/-- What is missing is what the full header defines and the trimmed one does not, the undefined object's number apart. A
    completed header defines what it did before and, ahead of the line that closes the include guard, every missing
    number once, and nothing is missing from it any more; without such a line it stays as it is and misses the same
    numbers. Completed again, it does not change. -/
theorem complete_again (full trimmed : Text) :
    let completed := complete full trimmed
    completed.missing = missingNumbers full trimmed ∧
    (∀ n, n ∈ completed.missing ↔ n ∈ definedNumbers full ∧ n ≠ undefinedNumber ∧ n ∉ definedNumbers trimmed) ∧
    (Guarded trimmed → ∃ pre post, trimmed = pre ++ post ∧ GuardCut pre post ∧
      definedNumbers trimmed = definedNumbers pre ++ definedNumbers post ∧
      definedNumbers completed.text = definedNumbers pre ++ completed.missing ++ definedNumbers post ∧
      (∃ pre', completed.text = pre' ++ post ∧ GuardCut pre' post ∧ ∀ n ∈ completed.missing,
        (definedNumbers completed.text).count n = 1 ∧ n ∈ definedNumbers pre' ∧ n ∉ definedNumbers post) ∧
      missingNumbers full completed.text = [] ∧ (complete full completed.text).missing = []) ∧
    (¬Guarded trimmed → completed.text = trimmed ∧
      missingNumbers full completed.text = missingNumbers full trimmed ∧
      (complete full completed.text).missing = completed.missing) ∧
    (complete full completed.text).text = completed.text := by
  intro completed
  refine ⟨rfl, fun n => mem_missingNumbers, fun h => ?_, fun h => ?_, ?_⟩
  · obtain ⟨pre, post, rfl, hcut⟩ := h.exists_cut
    have hnames : ∀ n ∈ completed.missing, (∃ s, n = numberMark ++ s) ∧ ∀ c ∈ n, isBlank c = false :=
      fun n hn => of_mem_missing hn
    have hafter : GuardCut (pre ++ placeholders completed.missing) post :=
      hcut.extend (ended_placeholders _) (not_guarded_placeholders hnames)
    refine ⟨pre, post, rfl, hcut, definedNumbers_append hcut.ended post, definedNumbers_complete_cut hcut,
      ⟨_, complete_cut hcut, hafter, fun n hn => ?_⟩, missingNumbers_complete_of_guarded full h,
      missingNumbers_complete_of_guarded full h⟩
    obtain ⟨honce, hafterGuard⟩ := count_missing hcut hn
    refine ⟨honce, ?_, hafterGuard⟩
    rw [definedNumbers_append hcut.ended, definedNumbers_placeholders hnames]
    exact List.mem_append_right _ hn
  · have htext : completed.text = trimmed := complete_of_not_guarded h
    rw [htext]
    exact ⟨rfl, rfl, rfl⟩
  · by_cases h : Guarded trimmed
    · exact complete_of_missingNumbers_eq_nil (missingNumbers_complete_of_guarded full h)
    · have htext : completed.text = trimmed := complete_of_not_guarded h
      rw [htext]
      exact htext

end ObjectTables.Header
