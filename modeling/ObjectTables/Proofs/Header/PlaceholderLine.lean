import ObjectTables.Proofs.Header.Completeness

/-! The placeholders as lines of the published header. A missing number has its two lines there exactly if the header
    closes its include guard (`hasPlaceholder_iff`): without that line nothing is inserted, while the number is missing
    all the same. -/

namespace ObjectTables.Header
open Text

/-- The text of a line that defines one macro as another. -/
def definition (name value : Text) : Text := "#define ".toList ++ name ++ placeholderGap ++ value

/-- A header defines a number macro as the undefined object's, and with it its short-name macro, each on a line of
    its own. -/
def HasPlaceholder (header name : Text) : Prop :=
  definition name undefinedNumber ∈ lines header ∧ definition (shortName name) undefinedShortName ∈ lines header

instance (header name : Text) : Decidable (HasPlaceholder header name) := inferInstanceAs (Decidable (_ ∧ _))

theorem ended_published (t : Text) : Ended (published t) := by
  rw [published, List.flatMap_def]
  refine ended_flatten fun l hl => ?_
  obtain ⟨line, hline, rfl⟩ := List.mem_map.mp hl
  obtain ⟨x, -, hx⟩ := publishedLine_eq (newline_not_mem_of_mem_lines hline)
  rw [hx]
  exact List.getLast?_concat

theorem publishedPlaceholderLine_eq (name value : Text) :
    publishedPlaceholderLine name value = definition name value ++ ['\r'] ++ ['\n'] :=
  (List.append_assoc (definition name value) ['\r'] ['\n']).symm

theorem ended_publishedPlaceholderLine (name value : Text) : Ended (publishedPlaceholderLine name value) := by
  rw [publishedPlaceholderLine_eq]
  exact ended_append_newline _

theorem lines_publishedPlaceholderLine {name value : Text} (hname : ∀ c ∈ name, isBlank c = false)
    (hvalue : '\n' ∉ value) : lines (publishedPlaceholderLine name value) = [definition name value] := by
  obtain ⟨x, hn, -, hline, -⟩ := placeholderLine_eq hname value
  have hx : definition name value = x ++ value := List.append_cancel_right hline
  have hnewline : '\n' ∉ definition name value ++ ['\r'] := by simp [hx, hn, hvalue]
  rw [lines, publishedPlaceholderLine_eq, rawLines_line hnewline, List.map_singleton, List.append_assoc,
    List.singleton_append, chomp_append_crlf]

theorem lines_publishedPlaceholder {name : Text} (h : ∀ c ∈ name, isBlank c = false) :
    lines (publishedPlaceholder name) =
      [definition name undefinedNumber, definition (shortName name) undefinedShortName] := by
  have hshort := shortName_not_isBlank h
  rw [publishedPlaceholder, lines_append (ended_publishedPlaceholderLine _ _),
    lines_publishedPlaceholderLine h (by decide), lines_publishedPlaceholderLine hshort (by decide)]
  rfl

theorem ended_publishedPlaceholder (name : Text) : Ended (publishedPlaceholder name) :=
  (ended_publishedPlaceholderLine _ _).append (ended_publishedPlaceholderLine _ _)

theorem lines_publishedPlaceholders {names : List Text} (h : ∀ name ∈ names, ∀ c ∈ name, isBlank c = false) :
    Ended (names.flatMap publishedPlaceholder) ∧ lines (names.flatMap publishedPlaceholder) =
      names.flatMap fun name => [definition name undefinedNumber, definition (shortName name) undefinedShortName] := by
  induction names with
  | nil => exact ⟨Or.inl rfl, rfl⟩
  | cons name names ih =>
    obtain ⟨hended, hlines⟩ := ih fun m hm => h m (List.mem_cons_of_mem _ hm)
    have hfirst := ended_publishedPlaceholder name
    rw [List.flatMap_cons, List.flatMap_cons, lines_append hfirst,
      lines_publishedPlaceholder (h name List.mem_cons_self), hlines]
    exact ⟨hfirst.append hended, rfl⟩

theorem hasPlaceholder_of_guarded {n full trimmed : Text} (h : Guarded trimmed)
    (hn : n ∈ (complete full trimmed).missing) : HasPlaceholder (published (complete full trimmed).text) n := by
  obtain ⟨pre, post, rfl, hcut⟩ := h.exists_cut
  have hnames : ∀ m ∈ (complete full (pre ++ post)).missing, ∀ c ∈ m, isBlank c = false :=
    fun m hm => (of_mem_missing hm).2
  obtain ⟨hended, hlines⟩ := lines_publishedPlaceholders hnames
  have hmem : ∀ line ∈ [definition n undefinedNumber, definition (shortName n) undefinedShortName],
      line ∈ lines (published (complete full (pre ++ post)).text) := by
    intro line hline
    rw [published_complete_cut hcut, lines_append ((ended_published pre).append hended),
      lines_append (ended_published pre), hlines]
    exact List.mem_append_left _ (List.mem_append_right _ (List.mem_flatMap.mpr ⟨n, hn, hline⟩))
  exact ⟨hmem _ List.mem_cons_self, hmem _ (List.mem_cons_of_mem _ List.mem_cons_self)⟩

theorem mem_definedNumbers_of_hasPlaceholder {n header : Text}
    (hn : (∃ s, n = numberMark ++ s) ∧ ∀ c ∈ n, isBlank c = false) (h : HasPlaceholder header n) :
    n ∈ definedNumbers header := by
  obtain ⟨⟨s, rfl⟩, hblank⟩ := hn
  refine List.mem_filterMap.mpr ⟨_, h.1, ?_⟩
  have hline : definedNumber? (definition (numberMark ++ s) undefinedNumber) =
      definedNumber? (placeholderLine (numberMark ++ s) undefinedNumber) :=
    definedNumber?_congr (trimEnd_append_blanks (List.all_eq_true.mp (by decide)) _).symm
  rw [hline, definedNumber?, definedMacro?_placeholderLine (by simp [numberMark_eq]) hblank, Option.filter_some,
    if_pos (List.isPrefixOf_iff_prefix.mpr (List.prefix_append _ _))]

/-- What is missing from a header gets its placeholders exactly if the header closes its include guard. -/
theorem hasPlaceholder_iff {n full trimmed : Text} (hn : n ∈ (complete full trimmed).missing) :
    HasPlaceholder (published (complete full trimmed).text) n ↔ Guarded trimmed := by
  refine ⟨fun h => ?_, fun h => hasPlaceholder_of_guarded h hn⟩
  by_cases hguarded : Guarded trimmed
  · exact hguarded
  · have hdefined := mem_definedNumbers_of_hasPlaceholder (of_mem_missing hn) h
    rw [definedNumbers_published, complete_of_not_guarded hguarded] at hdefined
    exact absurd hdefined (mem_missingNumbers.mp hn).2.2

theorem placeholders_eq_nil_iff {names : List Text} : placeholders names = [] ↔ names = [] := by
  cases names with
  | nil => exact iff_of_true rfl rfl
  | cons n names =>
    have hline : placeholderLine n undefinedNumber ≠ [] := List.append_ne_nil_of_right_ne_nil _ (List.cons_ne_nil _ _)
    have hfirst : placeholder n ≠ [] := List.append_ne_nil_of_left_ne_nil hline _
    rw [placeholders, List.flatMap_cons]
    exact iff_of_false (List.append_ne_nil_of_left_ne_nil hfirst _) (List.cons_ne_nil _ _)

/-- Placeholders find no place exactly if some are needed and the header does not close its include guard. -/
theorem lacksGuard_iff {full trimmed : Text} :
    lacksGuard full trimmed = true ↔ (complete full trimmed).missing ≠ [] ∧ ¬Guarded trimmed := by
  have hempty : (placeholders (missingNumbers full trimmed)).isEmpty = true ↔
      (complete full trimmed).missing = [] := List.isEmpty_iff.trans placeholders_eq_nil_iff
  rw [lacksGuard, insert?]
  by_cases hmissing : (complete full trimmed).missing = []
  · rw [if_pos (hempty.mpr hmissing)]
    simp [hmissing]
  · rw [if_neg fun h => hmissing (hempty.mp h)]
    by_cases hguarded : Guarded trimmed
    · obtain ⟨pre, post, rfl, hcut⟩ := hguarded.exists_cut
      obtain ⟨line, more, hpost, hline⟩ := hcut.first
      rw [rawLines_append hcut.ended, hpost, insertAtGuard?_eq_some (not_guarded_iff.mp hcut.before) hline]
      simp [hguarded]
    · rw [insertAtGuard?_eq_none (not_guarded_iff.mp hguarded)]
      simp [hmissing, hguarded]

end ObjectTables.Header
