import Mathlib.Data.List.Nodup
import ObjectTables.Proofs.Header.Completeness

/-! The macros that placeholders define, short names included. No number among them is defined before, and none of them
    is defined twice by placeholders (`nodup_inserted`). Nothing is known of the short names: whoever defines one
    without its number finds it defined again (`short_name_redefined`), and there is no other way to a second definition
    (`placeholders_define_once`). -/

namespace ObjectTables.Header
open Text

/-! ### Macros -/

/-- The macros that a header defines, of numbers and of anything else, in the order of its lines. -/
def definedMacros (t : Text) : List Text := (lines t).filterMap definedMacro?

theorem definedNumbers_eq_filter (t : Text) : definedNumbers t = (definedMacros t).filter (numberMark.isPrefixOf ·) := by
  rw [definedNumbers, definedMacros, List.filter_filterMap]
  rfl

/-- A macro with the mark of the numbers is one of them. -/
theorem mem_definedNumbers_iff {n t : Text} (h : ∃ s, n = numberMark ++ s) :
    n ∈ definedNumbers t ↔ n ∈ definedMacros t := by
  obtain ⟨s, rfl⟩ := h
  have hmark : numberMark.isPrefixOf (numberMark ++ s) = true :=
    List.isPrefixOf_iff_prefix.mpr (List.prefix_append _ _)
  rw [definedNumbers_eq_filter, List.mem_filter]
  exact and_iff_left hmark

theorem definedMacros_eq (t : Text) : definedMacros t = (rawLines t).filterMap definedMacro? := by
  have hchomp : definedMacro? ∘ chomp = definedMacro? := by
    funext line
    rw [Function.comp_apply, ← definedMacro?_trimEnd, trimEnd_chomp, definedMacro?_trimEnd]
  rw [definedMacros, lines, List.filterMap_map, hchomp]

theorem definedMacros_append {a : Text} (h : Ended a) (b : Text) :
    definedMacros (a ++ b) = definedMacros a ++ definedMacros b := by
  simp only [definedMacros_eq, rawLines_append h, List.filterMap_append]

theorem definedMacros_placeholderLine {name value : Text} (hne : name ≠ []) (hname : ∀ c ∈ name, isBlank c = false)
    (hvalue : '\n' ∉ value) : definedMacros (placeholderLine name value) = [name] := by
  obtain ⟨x, hn, -, hline, -⟩ := placeholderLine_eq hname value
  have hmacro := definedMacro?_placeholderLine hne hname value
  rw [hline] at hmacro
  rw [definedMacros_eq, hline, rawLines_line (by simp [hn, hvalue]), List.filterMap_cons, hmacro]
  rfl

/-! ### Placeholders -/

/-- The macros that placeholders define: each number, and its short name after it. -/
def inserted (names : List Text) : List Text := names.flatMap fun n => [n, shortName n]

theorem mem_inserted {m : Text} {names : List Text} :
    m ∈ inserted names ↔ ∃ n ∈ names, m = n ∨ m = shortName n := by
  simp [inserted]

theorem definedMacros_placeholders {names : List Text}
    (h : ∀ n ∈ names, (∃ s, n = numberMark ++ s) ∧ ∀ c ∈ n, isBlank c = false) :
    definedMacros (placeholders names) = inserted names := by
  induction names with
  | nil => rfl
  | cons n names ih =>
    obtain ⟨⟨s, rfl⟩, hblank⟩ := h n List.mem_cons_self
    have hnumber : definedMacros (placeholderLine (numberMark ++ s) undefinedNumber) = [numberMark ++ s] :=
      definedMacros_placeholderLine (by simp [numberMark_eq]) hblank (by decide)
    have hshortName : definedMacros (placeholderLine (shortName (numberMark ++ s)) undefinedShortName) =
        [shortName (numberMark ++ s)] := by
      refine definedMacros_placeholderLine ?_ (shortName_not_isBlank hblank) (by decide)
      simp [shortName_number, shortNameMark_eq]
    rw [placeholders, List.flatMap_cons, definedMacros_append (ended_placeholder _), placeholder,
      definedMacros_append (ended_placeholderLine _ _), hnumber, hshortName, ← placeholders,
      ih fun m hm => h m (List.mem_cons_of_mem _ hm)]
    rfl

/-- The marks tell a short name from every number. -/
theorem shortName_ne_number (s s' : Text) : shortName (numberMark ++ s) ≠ numberMark ++ s' := by
  rw [shortName_number]
  simp [shortNameMark_eq, numberMark_eq]

theorem shortName_inj {s s' : Text} (h : shortName (numberMark ++ s) = shortName (numberMark ++ s')) : s = s' := by
  rw [shortName_number, shortName_number] at h
  exact List.append_cancel_left h

/-- Placeholders define no macro twice. -/
theorem nodup_inserted {names : List Text} (hnodup : names.Nodup) (h : ∀ n ∈ names, ∃ s, n = numberMark ++ s) :
    (inserted names).Nodup := by
  induction names with
  | nil => exact List.nodup_nil
  | cons n names ih =>
    obtain ⟨hn, hnames⟩ := List.nodup_cons.mp hnodup
    have hrest : (inserted names).Nodup := ih hnames fun m hm => h m (List.mem_cons_of_mem _ hm)
    obtain ⟨s, rfl⟩ := h n List.mem_cons_self
    have hnumber : numberMark ++ s ∉ inserted names := by
      intro hmem
      obtain ⟨m, hm, hnm | hnm⟩ := mem_inserted.mp hmem
      · exact hn (hnm ▸ hm)
      · obtain ⟨s', rfl⟩ := h m (List.mem_cons_of_mem _ hm)
        exact shortName_ne_number s' s hnm.symm
    have hshort : shortName (numberMark ++ s) ∉ inserted names := by
      intro hmem
      obtain ⟨m, hm, hnm | hnm⟩ := mem_inserted.mp hmem
      · obtain ⟨s', rfl⟩ := h m (List.mem_cons_of_mem _ hm)
        exact shortName_ne_number s s' hnm
      · obtain ⟨s', rfl⟩ := h m (List.mem_cons_of_mem _ hm)
        exact hn (shortName_inj hnm ▸ hm)
    rw [inserted, List.flatMap_cons, ← inserted]
    simp only [List.cons_append, List.nil_append, List.nodup_cons, List.mem_cons, not_or]
    exact ⟨⟨(shortName_ne_number s s).symm, hnumber⟩, hshort, hrest⟩

/-! ### Completed headers -/

theorem number_not_mem_of_missing {n full trimmed : Text} (hn : n ∈ (complete full trimmed).missing) :
    n ∉ definedMacros trimmed := by
  intro hmem
  obtain ⟨hmark, -⟩ := of_mem_missing hn
  exact (mem_missingNumbers.mp hn).2.2 ((mem_definedNumbers_iff hmark).mpr hmem)

theorem definedMacros_complete_cut {full pre post : Text} (h : GuardCut pre post) :
    definedMacros (complete full (pre ++ post)).text =
      definedMacros pre ++ inserted (complete full (pre ++ post)).missing ++ definedMacros post := by
  rw [complete_cut h, definedMacros_append (h.ended.append (ended_placeholders _)), definedMacros_append h.ended,
    definedMacros_placeholders fun _ => of_mem_missing]

/-- A completed header defines every macro as often as before, and once more if a placeholder does. -/
theorem count_definedMacros_complete {full trimmed : Text} (h : Guarded trimmed) (m : Text) :
    (definedMacros (complete full trimmed).text).count m =
      (definedMacros trimmed).count m + (inserted (complete full trimmed).missing).count m := by
  obtain ⟨pre, post, rfl, hcut⟩ := h.exists_cut
  rw [definedMacros_complete_cut hcut, definedMacros_append hcut.ended]
  simp only [List.count_append]
  omega

/-- Placeholders define the missing numbers and their short names, no macro twice and no number that is defined already.
    So a macro becomes defined twice exactly if it is the short name of a missing number, and defined already. Where no
    short name is defined without its number, placeholders define nothing again. -/
theorem placeholders_define_once (full trimmed : Text) (h : Guarded trimmed) :
    let completed := complete full trimmed
    let added := definedMacros (placeholders completed.missing)
    (∃ pre post, trimmed = pre ++ post ∧ GuardCut pre post ∧
      completed.text = pre ++ placeholders completed.missing ++ post) ∧
    (∀ m, m ∈ added ↔ ∃ n ∈ completed.missing, m = n ∨ m = shortName n) ∧
    added.Nodup ∧
    (∀ n ∈ completed.missing, n ∉ definedMacros trimmed) ∧
    ((definedMacros trimmed).Nodup → ∀ m, 1 < (definedMacros completed.text).count m ↔
      m ∈ definedMacros trimmed ∧ ∃ n ∈ completed.missing, m = shortName n) ∧
    ((∀ s, shortNameMark ++ s ∈ definedMacros trimmed → numberMark ++ s ∈ definedMacros trimmed) →
      (∀ m ∈ added, m ∉ definedMacros trimmed) ∧
      ((definedMacros trimmed).Nodup → (definedMacros completed.text).Nodup)) := by
  intro completed added
  have hmarks : ∀ n ∈ completed.missing, ∃ s, n = numberMark ++ s := fun n hn => (of_mem_missing hn).1
  have hnumbers : ∀ n ∈ completed.missing, n ∉ definedMacros trimmed := fun n hn => number_not_mem_of_missing hn
  have hadded : added = inserted completed.missing := definedMacros_placeholders fun n hn => of_mem_missing hn
  have hnodup : (inserted completed.missing).Nodup := nodup_inserted (nodup_missingNumbers full trimmed) hmarks
  have hcount : ∀ m, (definedMacros completed.text).count m =
      (definedMacros trimmed).count m + (inserted completed.missing).count m := count_definedMacros_complete h
  rw [hadded]
  refine ⟨?_, fun m => mem_inserted, hnodup, hnumbers, fun hdistinct m => ?_, fun hpaired => ?_⟩
  · obtain ⟨pre, post, rfl, hcut⟩ := h.exists_cut
    exact ⟨pre, post, rfl, hcut, complete_cut hcut⟩
  · have htwice : 1 < (definedMacros completed.text).count m ↔
        m ∈ definedMacros trimmed ∧ m ∈ inserted completed.missing := by
      have h₁ := List.nodup_iff_count_le_one.mp hdistinct m
      have h₂ := List.nodup_iff_count_le_one.mp hnodup m
      rw [hcount, ← List.count_pos_iff, ← List.count_pos_iff]
      omega
    rw [htwice, mem_inserted]
    refine and_congr_right fun hm => ⟨?_, ?_⟩
    · rintro ⟨n, hn, rfl | rfl⟩
      · exact absurd hm (hnumbers m hn)
      · exact ⟨n, hn, rfl⟩
    · rintro ⟨n, hn, rfl⟩
      exact ⟨n, hn, Or.inr rfl⟩
  · have hfresh : ∀ m ∈ inserted completed.missing, m ∉ definedMacros trimmed := by
      intro m hm hdefined
      obtain ⟨n, hn, rfl | rfl⟩ := mem_inserted.mp hm
      · exact hnumbers m hn hdefined
      · obtain ⟨s, rfl⟩ := hmarks n hn
        rw [shortName_number] at hdefined
        exact hnumbers _ hn (hpaired s hdefined)
    refine ⟨hfresh, fun hdistinct => List.nodup_iff_count_le_one.mpr fun m => ?_⟩
    rw [hcount]
    by_cases hm : m ∈ inserted completed.missing
    · rw [List.count_eq_zero.mpr (hfresh m hm), Nat.zero_add]
      exact List.nodup_iff_count_le_one.mp hnodup m
    · rw [List.count_eq_zero.mpr hm, Nat.add_zero]
      exact List.nodup_iff_count_le_one.mp hdistinct m

/-- Of two numbers one is missing, and the short name of the other is defined beside it. -/
theorem placeholders_define_once_beside_pair :
    let full := "#define NID_A 1\n#define NID_B 2\n".toList
    let trimmed := "#define SN_A \"A\"\n#define NID_A 0\n#endif /* OPENSSL_OBJ_MAC_H */".toList
    Guarded trimmed ∧ (complete full trimmed).missing = ["NID_B".toList] ∧
      (definedMacros (complete full trimmed).text).Nodup := by
  intro full trimmed
  have hguarded : Guarded trimmed := by decide +kernel
  have hmacros : definedMacros trimmed = [shortNameMark ++ ['A'], numberMark ++ ['A']] := by decide +kernel
  have hpaired : ∀ s, shortNameMark ++ s ∈ definedMacros trimmed → numberMark ++ s ∈ definedMacros trimmed := by
    intro s hs
    rw [hmacros] at hs ⊢
    simpa [shortNameMark_eq, numberMark_eq] using hs
  have hdistinct : (definedMacros trimmed).Nodup := by
    rw [hmacros]
    decide
  obtain ⟨-, -, -, -, -, honce⟩ := placeholders_define_once full trimmed hguarded
  exact ⟨hguarded, by decide +kernel, (honce hpaired).2 hdistinct⟩

/-- A short name that is defined without its number is defined again, as another macro, by a placeholder. -/
theorem short_name_redefined :
    let full := "#define NID_B 1\n".toList
    let trimmed := "#define SN_B \"B\"\n#endif /* OPENSSL_OBJ_MAC_H */\n".toList
    Guarded trimmed ∧ (definedMacros trimmed).Nodup ∧
      (∃ m ∈ definedMacros (placeholders (complete full trimmed).missing), m ∈ definedMacros trimmed) ∧
      ¬(definedMacros (complete full trimmed).text).Nodup := by
  decide +kernel

end ObjectTables.Header
