import ObjectTables.Header.Definition
import ObjectTables.Proofs.Text.Published

/-! What a header defines. A line defines the same macro whatever blanks end it and whatever blanks stand
    for its tabs, so a header and its published form define the same numbers, in the same order. The
    missing numbers are a set difference: each once, in the order of the full header. -/

namespace ObjectTables.Header
open Text

/-! ### Marks -/

theorem numberMark_eq : numberMark = ['N', 'I', 'D', '_'] := by decide +kernel

theorem shortNameMark_eq : shortNameMark = ['S', 'N', '_'] := by decide +kernel

@[simp] theorem after?_nil (t : Text) : after? [] t = some t := by simp [after?]

@[simp] theorem after?_cons_nil (m : Char) (mark : Text) : after? (m :: mark) [] = none := by simp [after?]

theorem after?_cons_cons (m c : Char) (mark t : Text) :
    after? (m :: mark) (c :: t) = if m = c then after? mark t else none := by
  by_cases h : m = c <;> simp [after?, h]

theorem after?_expandTabs {mark : Text} (htab : '\t' ∉ mark) (hspace : ' ' ∉ mark) (column : Nat) (t : Text) :
    after? mark (expandTabs column t) = (after? mark t).map (expandTabs (column + mark.length)) := by
  induction mark generalizing column t with
  | nil => simp
  | cons m mark ih =>
    simp only [List.mem_cons, not_or] at htab hspace
    cases t with
    | nil => simp [expandTabs]
    | cons c t =>
      by_cases hc : c = '\t'
      · subst hc
        obtain ⟨pad, column', he⟩ := expandTabs_tab_cons column t
        rw [he, after?_cons_cons, if_neg (fun h => hspace.1 h.symm), after?_cons_cons,
          if_neg (fun h => htab.1 h.symm), Option.map_none]
      · rw [expandTabs_cons hc, after?_cons_cons, after?_cons_cons]
        split
        · rw [ih htab.2 hspace.2, List.length_cons, Nat.add_assoc, Nat.add_comm 1]
        · rfl

theorem after?_trimEnd {x : Text} {c : Char} (hc : isBlank c = false) (t : Text) :
    after? (x ++ [c]) (trimEnd t) = (after? (x ++ [c]) t).map trimEnd := by
  cases h : after? (x ++ [c]) t with
  | some rest =>
    rw [Option.map_some, after?_eq_some_iff, after?_eq_some_iff.mp h, List.append_assoc, List.singleton_append,
      trimEnd_append_cons hc, List.append_assoc, List.singleton_append]
  | none =>
    rw [Option.map_none, Option.eq_none_iff_forall_ne_some]
    intro rest hrest
    obtain ⟨b, hb, -⟩ := exists_trimEnd_append t
    rw [after?_eq_some_iff.mp hrest, List.append_assoc] at hb
    rw [after?_eq_some_iff.mpr hb] at h
    exact absurd h (by simp)

/-! ### Definitions and blanks -/

theorem trimStart_expandTabs (column : Nat) (t : Text) :
    ∃ column', trimStart (expandTabs column t) = expandTabs column' (trimStart t) := by
  induction t generalizing column with
  | nil => exact ⟨0, rfl⟩
  | cons c t ih =>
    by_cases hc : c = '\t'
    · subst hc
      obtain ⟨column', h⟩ := ih (column + (tabWidth - column % tabWidth))
      refine ⟨column', ?_⟩
      rw [expandTabs_tab, trimStart, List.dropWhile_append_of_pos isBlank_of_mem_spaces]
      exact h
    · rw [expandTabs_cons hc]
      by_cases hb : isBlank c = true
      · obtain ⟨column', h⟩ := ih (column + 1)
        exact ⟨column', by rw [trimStart, List.dropWhile_cons_of_pos hb, ← trimStart, h, trimStart, trimStart,
          List.dropWhile_cons_of_pos hb]⟩
      · exact ⟨column, by rw [trimStart, List.dropWhile_cons_of_neg hb, trimStart, List.dropWhile_cons_of_neg hb,
          expandTabs_cons hc]⟩

theorem head?_expandTabs (column : Nat) (t : Text) :
    (expandTabs column t).head?.any isDirectiveBlank = t.head?.any isDirectiveBlank := by
  cases t with
  | nil => rfl
  | cons c t =>
    by_cases hc : c = '\t'
    · subst hc
      obtain ⟨pad, column', he⟩ := expandTabs_tab_cons column t
      rw [he]
      rfl
    · rw [expandTabs_cons hc, List.head?_cons, List.head?_cons]

theorem definedMacro?_expandTabs (column : Nat) (line : Text) :
    definedMacro? (expandTabs column line) = definedMacro? line := by
  unfold definedMacro?
  obtain ⟨column₁, h₁⟩ := trimStart_expandTabs column line
  rw [h₁, after?_expandTabs (by decide) (by decide)]
  cases after? ['#'] (trimStart line) with
  | none => rfl
  | some directive =>
    obtain ⟨column₂, h₂⟩ := trimStart_expandTabs (column₁ + ['#'].length) directive
    simp only [Option.map_some, Option.bind_eq_bind, Option.bind_some]
    rw [h₂, after?_expandTabs (by decide) (by decide)]
    cases after? "define".toList (trimStart directive) with
    | none => rfl
    | some rest => simp only [Option.map_some, Option.bind_some, head?_expandTabs, words_expandTabs]

theorem definedMacro?_trimEnd (line : Text) : definedMacro? (trimEnd line) = definedMacro? line := by
  unfold definedMacro?
  rw [trimStart_trimEnd, ← List.nil_append ['#'], after?_trimEnd (by decide)]
  cases after? ([] ++ ['#']) (trimStart line) with
  | none => rfl
  | some directive =>
    simp only [Option.map_some, Option.bind_eq_bind, Option.bind_some]
    rw [trimStart_trimEnd, show "define".toList = "defin".toList ++ ['e'] from rfl, after?_trimEnd (by decide)]
    cases after? ("defin".toList ++ ['e']) (trimStart directive) with
    | none => rfl
    | some rest =>
      simp only [Option.map_some, Option.bind_some, words_trimEnd]
      by_cases hw : words rest = []
      · simp [hw]
      · rw [head?_trimEnd hw]

theorem definedNumber?_congr {line line' : Text} (h : trimEnd line = trimEnd line') :
    definedNumber? line = definedNumber? line' := by
  rw [definedNumber?, definedNumber?, ← definedMacro?_trimEnd line, h, definedMacro?_trimEnd]

theorem definedNumber?_publishedLine (line : Text) : definedNumber? (publishedLine line) = definedNumber? line := by
  calc definedNumber? (publishedLine line) = definedNumber? (expandTabs 0 (trimEnd line)) :=
        definedNumber?_congr (trimEnd_append_blanks (List.all_eq_true.mp (by decide)) _)
    _ = definedNumber? (trimEnd line) := by rw [definedNumber?, definedMacro?_expandTabs, ← definedNumber?]
    _ = definedNumber? line := definedNumber?_congr (trimEnd_trimEnd line)

/-! ### Headers -/

/-- The line ends do not matter for what a header defines. -/
theorem definedNumbers_eq (t : Text) : definedNumbers t = (rawLines t).filterMap definedNumber? := by
  rw [definedNumbers, lines, List.filterMap_map]
  exact congrArg (List.filterMap · _) (funext fun line => definedNumber?_congr (trimEnd_chomp line))

@[simp] theorem definedNumbers_nil : definedNumbers [] = [] := rfl

theorem definedNumbers_append {a : Text} (h : Ended a) (b : Text) :
    definedNumbers (a ++ b) = definedNumbers a ++ definedNumbers b := by
  rw [definedNumbers_eq, rawLines_append h, List.filterMap_append, ← definedNumbers_eq, ← definedNumbers_eq]

/-- Publishing a header changes none of the numbers that it defines. -/
@[simp] theorem definedNumbers_published (t : Text) : definedNumbers (published t) = definedNumbers t := by
  rw [definedNumbers_eq, rawLines_published, List.filterMap_map, definedNumbers]
  exact congrArg (List.filterMap · _) (funext definedNumber?_publishedLine)

/-- A number macro is a word that begins with the mark of number macros. -/
theorem of_mem_definedNumbers {n t : Text} (h : n ∈ definedNumbers t) :
    (∃ s, n = numberMark ++ s) ∧ ∀ c ∈ n, isBlank c = false := by
  obtain ⟨line, -, hline⟩ := List.mem_filterMap.mp h
  obtain ⟨hmac, hmark⟩ := Option.filter_eq_some_iff.mp hline
  obtain ⟨s, hs⟩ := List.isPrefixOf_iff_prefix.mp hmark
  refine ⟨⟨s, hs.symm⟩, ?_⟩
  unfold definedMacro? at hmac
  obtain ⟨directive, -, hmac⟩ := Option.bind_eq_some_iff.mp hmac
  obtain ⟨rest, -, hmac⟩ := Option.bind_eq_some_iff.mp hmac
  split at hmac
  · exact not_isBlank_of_mem_words (List.mem_of_head? hmac)
  · cases hmac

/-! ### Missing numbers -/

theorem mem_firstOccurrences {n : Text} {seen l : List Text} :
    n ∈ firstOccurrences seen l ↔ n ∈ l ∧ n ∉ seen := by
  induction l generalizing seen with
  | nil => simp [firstOccurrences]
  | cons m l ih =>
    unfold firstOccurrences
    split
    · next hm =>
      rw [ih, List.mem_cons, or_and_right]
      have hm' : m ∈ seen := by simpa using hm
      exact ⟨Or.inr, fun h => h.resolve_left fun ⟨he, hn⟩ => hn (he ▸ hm')⟩
    · next hm =>
      have hm' : m ∉ seen := by simpa using hm
      rw [List.mem_cons, ih, List.mem_cons, List.mem_cons, not_or]
      by_cases hn : n = m <;> simp [hn, hm']

theorem nodup_firstOccurrences (seen l : List Text) : (firstOccurrences seen l).Nodup := by
  induction l generalizing seen with
  | nil => simp [firstOccurrences]
  | cons m l ih =>
    unfold firstOccurrences
    split
    · exact ih seen
    · exact List.nodup_cons.mpr ⟨fun h => (mem_firstOccurrences.mp h).2 List.mem_cons_self, ih _⟩

/-- A number is missing if the full header defines it and the trimmed one does not, the undefined object's
    apart. -/
theorem mem_missingNumbers {n full trimmed : Text} :
    n ∈ missingNumbers full trimmed ↔
      n ∈ definedNumbers full ∧ n ≠ undefinedNumber ∧ n ∉ definedNumbers trimmed := by
  simp [missingNumbers, mem_firstOccurrences]

theorem nodup_missingNumbers (full trimmed : Text) : (missingNumbers full trimmed).Nodup :=
  nodup_firstOccurrences _ _

end ObjectTables.Header
