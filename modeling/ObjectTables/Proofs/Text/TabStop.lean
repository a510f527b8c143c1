import Mathlib.Data.List.TakeWhile
import ObjectTables.Proofs.Text.Shape

/-! Tab stops after a carriage return. Publishing counts the columns of a line from its start to its end; the other way
    to count begins anew after each carriage return (`expandTabsAnew`). Between two carriage returns the two counts
    stay as far apart as they were, and a tab there is expanded alike if and only if they differ by whole tab stops
    (`expandTabs_eq_iff`). A line is therefore expanded alike if and only if every carriage return that has a tab
    between it and the next one is written at the end of a tab stop (`expandTabs_eq_anew_iff`). -/

namespace ObjectTables.Text

/-- Expands the tabs of a line that goes on in `column`, with a tab stop every eight columns: a tab becomes spaces up to
    the next stop, a carriage return or a line feed begins the columns anew, any other character takes one column. -/
def expandTabsAnew (column : Nat) : Text → Text
  | [] => []
  | c :: rest =>
    if c = '\t' then
      List.replicate (8 - column % 8) ' ' ++ expandTabsAnew (column + (8 - column % 8)) rest
    else if c = '\r' ∨ c = '\n' then c :: expandTabsAnew 0 rest
    else c :: expandTabsAnew (column + 1) rest

/-! ### Between two carriage returns -/

theorem expandTabs_congr {k j : Nat} (h : k % tabWidth = j % tabWidth) (t : Text) :
    expandTabs k t = expandTabs j t := by
  induction t generalizing k j with
  | nil => rfl
  | cons c t ih =>
    have hadd : ∀ n, (k + n) % tabWidth = (j + n) % tabWidth := fun n => by rw [Nat.add_mod, h, ← Nat.add_mod]
    by_cases hc : c = '\t'
    · subst hc
      rw [expandTabs_tab, expandTabs_tab, h, ih (hadd _)]
    · rw [expandTabs_cons hc, expandTabs_cons hc, ih (hadd 1)]

/-- After a tab the columns of a line agree, wherever it began. -/
theorem expandTabs_tab_eq (column : Nat) (t : Text) :
    expandTabs column ('\t' :: t) = List.replicate (tabWidth - column % tabWidth) ' ' ++ expandTabs 0 t := by
  have hstop : (column + (tabWidth - column % tabWidth)) % tabWidth = 0 % tabWidth := by
    rw [show tabWidth = 8 from rfl]
    omega
  rw [expandTabs_tab, expandTabs_congr hstop]

theorem expandTabs_eq_iff {k j : Nat} {t : Text} :
    expandTabs k t = expandTabs j t ↔ ('\t' ∈ t → k % tabWidth = j % tabWidth) := by
  constructor
  · intro h hmem
    -- up to the first tab nothing is expanded, and after it the columns agree: the spaces for it must be as many
    obtain ⟨x, u, rfl, hx⟩ := List.eq_append_cons_of_mem hmem
    rw [expandTabs_append, expandTabs_append, expandTabs_of_no_tab hx, expandTabs_of_no_tab hx] at h
    have hlength := congrArg List.length (List.append_cancel_left h)
    simp only [expandTabs_tab_eq, List.length_append, List.length_replicate] at hlength
    rw [show tabWidth = 8 from rfl] at hlength ⊢
    omega
  · intro h
    by_cases hmem : '\t' ∈ t
    · exact expandTabs_congr (h hmem) t
    · rw [expandTabs_of_no_tab hmem, expandTabs_of_no_tab hmem]

/-! ### Across carriage returns -/

theorem expandTabsAnew_append {p : Text} (hreturn : '\r' ∉ p) (hnewline : '\n' ∉ p) (column : Nat) (t : Text) :
    expandTabsAnew column (p ++ t) =
      expandTabs column p ++ expandTabsAnew (column + (expandTabs column p).length) t := by
  induction p generalizing column with
  | nil => rfl
  | cons c p ih =>
    simp only [List.mem_cons, not_or] at hreturn hnewline
    by_cases hc : c = '\t'
    · subst hc
      rw [List.cons_append, expandTabsAnew, if_pos rfl, ih hreturn.2 hnewline.2, expandTabs_tab, List.append_assoc,
        List.length_append, List.length_replicate, Nat.add_assoc]
      rfl
    · have hplain : ¬(c = '\r' ∨ c = '\n') := fun h => h.elim (fun h => hreturn.1 h.symm) fun h => hnewline.1 h.symm
      rw [List.cons_append, expandTabsAnew, if_neg hc, if_neg hplain, ih hreturn.2 hnewline.2, expandTabs_cons hc,
        List.cons_append, List.length_cons, Nat.add_assoc, Nat.add_comm 1]

theorem expandTabsAnew_of_no_return {p : Text} (hreturn : '\r' ∉ p) (hnewline : '\n' ∉ p) (column : Nat) :
    expandTabsAnew column p = expandTabs column p := by
  have happend := expandTabsAnew_append hreturn hnewline column []
  rwa [List.append_nil, expandTabsAnew, List.append_nil] at happend

theorem expandTabsAnew_return {p : Text} (hreturn : '\r' ∉ p) (hnewline : '\n' ∉ p) (column : Nat) (t : Text) :
    expandTabsAnew column (p ++ '\r' :: t) = expandTabs column p ++ '\r' :: expandTabsAnew 0 t := by
  rw [expandTabsAnew_append hreturn hnewline, expandTabsAnew, if_neg (by decide), if_pos (Or.inl rfl)]

/-- What stands in a text before its first carriage return. -/
def untilReturn (t : Text) : Text := t.takeWhile (· ≠ '\r')

theorem forall_ne_return {t : Text} (h : '\r' ∉ t) : ∀ c ∈ t, decide (c ≠ '\r') = true := by
  intro c hc
  rw [decide_eq_true_eq]
  rintro rfl
  exact h hc

theorem untilReturn_return {p : Text} (h : '\r' ∉ p) (t : Text) : untilReturn (p ++ '\r' :: t) = p := by
  rw [untilReturn, List.takeWhile_append_of_pos (forall_ne_return h), List.takeWhile_cons_of_neg (by simp),
    List.append_nil]

theorem untilReturn_of_no_return {t : Text} (h : '\r' ∉ t) : untilReturn t = t :=
  List.takeWhile_eq_self_iff.mpr (forall_ne_return h)

theorem expandTabs_return (column : Nat) (p t : Text) : expandTabs column (p ++ '\r' :: t) =
    expandTabs column p ++ '\r' :: expandTabs (column + (expandTabs column (p ++ ['\r'])).length) t := by
  have hreturn : expandTabs column (p ++ ['\r']) = expandTabs column p ++ ['\r'] := by
    rw [expandTabs_append, expandTabs_cons (by decide), expandTabs]
  rw [List.append_cons, expandTabs_append, hreturn, List.append_assoc, List.singleton_append]

/-- A line that goes on in `column` is expanded as if it began there if and only if tabs stand only where the columns
    agree: before the first carriage return if `column` is a tab stop, and after a carriage return, up to the next
    one, if what is written up to that return ends at a tab stop. -/
theorem expandTabs_eq_anew_iff {t : Text} (hnewline : '\n' ∉ t) (column : Nat) :
    expandTabs column t = expandTabsAnew 0 t ↔ ('\t' ∈ untilReturn t → 8 ∣ column) ∧
      ∀ a b, t = a ++ '\r' :: b → '\t' ∈ untilReturn b → 8 ∣ column + (expandTabs column (a ++ ['\r'])).length := by
  have hstop : ∀ k, k % tabWidth = 0 % tabWidth ↔ 8 ∣ k := fun k => by
    rw [show tabWidth = 8 from rfl]
    omega
  -- by the first carriage return; what follows it goes on in the column that is reached there
  induction t using cut_induction '\r' generalizing column with
  | nil => simp [expandTabs, expandTabsAnew, untilReturn]
  | last p _ hp =>
    rw [expandTabsAnew_of_no_return hp hnewline, expandTabs_eq_iff, untilReturn_of_no_return hp, hstop]
    refine (and_iff_left ?_).symm
    rintro a b rfl
    simp at hp
  | cut p t hp ih =>
    simp only [List.mem_append, List.mem_cons, not_or] at hnewline
    obtain ⟨hnp, -, hnt⟩ := hnewline
    have hfree : ∀ k, '\r' ∉ expandTabs k p := fun k => mt (mem_expandTabs_iff (by decide) (by decide)).mp hp
    have hwritten : ∀ a, column + (expandTabs column (p ++ '\r' :: a ++ ['\r'])).length =
        column + (expandTabs column (p ++ ['\r'])).length +
          (expandTabs (column + (expandTabs column (p ++ ['\r'])).length) (a ++ ['\r'])).length := fun a => by
      rw [List.append_assoc, List.cons_append, List.append_cons, expandTabs_append, List.length_append, Nat.add_assoc]
    calc expandTabs column (p ++ '\r' :: t) = expandTabsAnew 0 (p ++ '\r' :: t)
        ↔ ('\t' ∈ p → 8 ∣ column) ∧
            expandTabs (column + (expandTabs column (p ++ ['\r'])).length) t = expandTabsAnew 0 t := by
          rw [expandTabs_return, expandTabsAnew_return hp hnp, append_cons_inj (hfree column) (hfree 0),
            expandTabs_eq_iff, hstop]
      _ ↔ _ := and_congr_right' (ih hnt _)
      _ ↔ _ := by
          rw [untilReturn_return hp, forall_cut_iff hp]
          simp only [hwritten]

/-- A line is published as it is expanded with the columns begun anew after each carriage return if and only if, where
    a tab stands after a return and before the next one, what is written up to that return ends at a tab stop. -/
theorem expands_anew_iff (t : Text) :
    List.Forall₂ (fun line out => out = expandTabsAnew 0 (trimEnd line) ↔
      ∀ a b, trimEnd line = a ++ '\r' :: b → '\t' ∈ untilReturn b → 8 ∣ (expandTabs 0 (a ++ ['\r'])).length)
      (lines t) (lines (published t)) := by
  rw [lines_published, List.forall₂_map_right_iff, List.forall₂_same]
  intro line hline
  have hnewline := newline_not_mem_trimEnd (newline_not_mem_of_mem_lines hline)
  rw [Function.comp_apply, expandTabs_eq_anew_iff hnewline]
  simp only [Nat.dvd_zero, imp_true_iff, true_and, Nat.zero_add]

theorem tab_after_return :
    ¬∀ t, lines (published t) = (lines t).map fun line => expandTabsAnew 0 (trimEnd line) := fun h =>
  absurd (h "a\rb\tc\n".toList) (by decide)

end ObjectTables.Text
