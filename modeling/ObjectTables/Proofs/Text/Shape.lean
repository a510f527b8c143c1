import Mathlib.Data.List.Forall2
import Mathlib.Data.List.Induction
import Mathlib.Order.Bounds.Basic
import ObjectTables.Proofs.Text.LineEnd

/-! The shape of a published text. The column of a line is the number of characters that have been written for it
    (`expandTabs_append`), so the spaces for a tab end at the next multiple of eight characters
    (`expanded_expandTabs`). Each line is published for itself, without its line end and the blanks before it. -/

namespace ObjectTables.Text

/-! ### Lines -/

/-- The lines of a text, as its line feeds separate them. What follows the last one is a line unless it is empty. -/
def separatedLines (t : Text) : List Text :=
  let parts := t.splitOn '\n'
  if parts.getLast? = some [] then parts.dropLast else parts

@[simp] theorem separatedLines_nil : separatedLines [] = [] := by simp [separatedLines]

theorem separatedLines_singleton {x : Text} (hne : x ≠ []) (hx : '\n' ∉ x) : separatedLines x = [x] := by
  simp [separatedLines, List.splitOn_eq_singleton hx, hne]

theorem separatedLines_line {x : Text} (hx : '\n' ∉ x) (t : Text) :
    separatedLines (x ++ '\n' :: t) = x :: separatedLines t := by
  obtain ⟨part, parts, hparts⟩ := List.exists_cons_of_ne_nil (t.splitOn_ne_nil '\n')
  simp only [separatedLines, List.splitOn_append_cons_self_of_not_mem hx, hparts, List.getLast?_cons_cons,
    List.dropLast_cons_cons]
  split <;> rfl

theorem newline_not_mem_of_mem_separatedLines {line t : Text} (h : line ∈ separatedLines t) : '\n' ∉ line := by
  induction t using line_induction with
  | nil => simp at h
  | last x hne hx =>
    rw [separatedLines_singleton hne hx, List.mem_singleton] at h
    rwa [h]
  | line x t hx ih =>
    rw [separatedLines_line hx, List.mem_cons] at h
    rcases h with rfl | h
    · exact hx
    · exact ih h

/-- The separated lines are those of the text, but for the blanks at their ends. -/
theorem map_trimEnd_separatedLines (t : Text) : (separatedLines t).map trimEnd = trimmedLines t := by
  induction t using line_induction with
  | nil => simp [trimmedLines]
  | last x hne hx =>
    rw [separatedLines_singleton hne hx, trimmedLines, rawLines_last hne hx]
  | line x t hx ih =>
    have htrim : trimEnd (x ++ ['\n']) = trimEnd x := trimEnd_append_blanks (lineEnd_isBlank (Or.inr (Or.inl rfl))) x
    rw [separatedLines_line hx, List.append_cons, trimmedLines_append (ended_append_newline x), trimmedLines,
      rawLines_line hx, List.map_cons, ih, List.map_singleton, htrim, List.singleton_append]

theorem length_separatedLines (t : Text) : (separatedLines t).length = (lines t).length := by
  rw [← List.length_map trimEnd, map_trimEnd_separatedLines, ← map_trimEnd_lines, List.length_map]

/-! ### Columns -/

/-- The spaces for a tab end at the next tab stop. -/
theorem isLeast_tabStop (column : Nat) :
    IsLeast {m | 8 ∣ m ∧ column < m} (column + (tabWidth - column % tabWidth)) := by
  rw [show tabWidth = 8 from rfl]
  constructor
  · exact ⟨by omega, by omega⟩
  · rintro m ⟨hm, hlt⟩
    omega

theorem tab_not_mem_expandTabs (column : Nat) (t : Text) : '\t' ∉ expandTabs column t := by
  induction t generalizing column with
  | nil => simp [expandTabs]
  | cons c t ih =>
    by_cases hc : c = '\t'
    · subst hc
      rw [expandTabs_tab, List.mem_append, not_or]
      exact ⟨fun hmem => absurd (List.mem_replicate.mp hmem).2 (by decide), ih _⟩
    · rw [expandTabs_cons hc, List.mem_cons, not_or]
      exact ⟨fun he => hc he.symm, ih _⟩

/-- A line with spaces for its tabs, from its start on: a character stays, and for a tab there are spaces up to the
    least multiple of eight above the number of characters that stand there already. -/
inductive Expanded : Text → Text → Prop where
  | nil : Expanded [] []
  | keep {x u : Text} {c : Char} : Expanded x u → c ≠ '\t' → Expanded (x ++ [c]) (u ++ [c])
  | tab {x u : Text} {pad : Nat} : Expanded x u → 1 ≤ pad → pad ≤ 8 →
      IsLeast {m | 8 ∣ m ∧ u.length < m} (u.length + pad) → Expanded (x ++ ['\t']) (u ++ List.replicate pad ' ')

theorem expandTabs_append_tab (x : Text) : expandTabs 0 (x ++ ['\t']) = expandTabs 0 x ++
    List.replicate (tabWidth - (expandTabs 0 x).length % tabWidth) ' ' := by
  rw [expandTabs_append, Nat.zero_add, expandTabs_tab, expandTabs, List.append_nil]

theorem expandTabs_append_singleton {c : Char} (hc : c ≠ '\t') (x : Text) :
    expandTabs 0 (x ++ [c]) = expandTabs 0 x ++ [c] := by
  rw [expandTabs_append, expandTabs_cons hc, expandTabs]

theorem expanded_expandTabs (x : Text) : Expanded x (expandTabs 0 x) := by
  -- by the last character: the column it stands in is the length of what is written for those before it
  induction x using List.reverseRecOn with
  | nil => exact Expanded.nil
  | append_singleton x c ih =>
    by_cases hc : c = '\t'
    · subst hc
      rw [expandTabs_append_tab]
      exact ih.tab (tabPad_pos _) (Nat.sub_le ..) (isLeast_tabStop _)
    · rw [expandTabs_append_singleton hc]
      exact ih.keep hc

/-- There is one way to expand a line. -/
theorem Expanded.eq {x u : Text} (h : Expanded x u) : u = expandTabs 0 x := by
  induction h with
  | nil => rfl
  | keep _ hc ih => rw [expandTabs_append_singleton hc, ← ih]
  | tab _ _ _ hleast ih =>
    have hpad := Nat.add_left_cancel (hleast.unique (isLeast_tabStop _))
    rw [expandTabs_append_tab, ← ih, ← hpad]

/-! ### The published form -/

/-- What is published for a line ends where its last word does. -/
theorem not_isBlank_of_getLast? {line : Text} {c : Char} (h : (expandTabs 0 (trimEnd line)).getLast? = some c) :
    isBlank c = false := by
  rcases blank_or_last line with hblank | ⟨x, d, b, rfl, hd, hb⟩
  · rw [trimEnd_eq_nil hblank] at h
    cases h
  · have hne : d ≠ '\t' := by
      rintro rfl
      exact absurd hd (by decide)
    rw [trimEnd_append_cons hd, trimEnd_eq_nil hb, expandTabs_append_singleton hne, List.getLast?_concat] at h
    rwa [← Option.some.inj h]

/-- The form in which a line is published, before its line end. -/
structure PublishedForm (line out : Text) : Prop where
  noTab : '\t' ∉ out
  noNewline : '\n' ∉ out
  trimmed : ∀ c, out.getLast? = some c → isBlank c = false
  expanded : Expanded (trimEnd line) out

theorem publishedForm {line : Text} (h : '\n' ∉ line) : PublishedForm line (expandTabs 0 (trimEnd line)) where
  noTab := tab_not_mem_expandTabs 0 _
  noNewline := newline_not_mem_out h
  trimmed _ := not_isBlank_of_getLast?
  expanded := expanded_expandTabs _

theorem published_eq_separatedLines (t : Text) : published t =
    ((separatedLines t).map fun line => expandTabs 0 (trimEnd line)).flatMap (· ++ ['\r', '\n']) := by
  rw [published_eq, ← map_trimEnd_separatedLines, List.flatMap_map, List.flatMap_map]
  rfl

/-- A published text consists of as many lines as the text has, each followed by a carriage return and a line feed.
    Each is free of tabs and of line feeds, does not end in a blank, and is the line of the text without the blanks at
    its end, with every tab expanded to the next multiple of eight characters. No other text is of that form. -/
theorem published_shape (t u : Text) : u = published t ↔
    ∃ outs, List.Forall₂ PublishedForm (separatedLines t) outs ∧ outs.length = (lines t).length ∧
      u = outs.flatMap (· ++ ['\r', '\n']) := by
  constructor
  · rintro rfl
    refine ⟨(separatedLines t).map fun line => expandTabs 0 (trimEnd line), ?_, ?_, published_eq_separatedLines t⟩
    · rw [List.forall₂_map_right_iff, List.forall₂_same]
      exact fun line hline => publishedForm (newline_not_mem_of_mem_separatedLines hline)
    · rw [List.length_map, length_separatedLines]
  · rintro ⟨outs, hform, -, rfl⟩
    have houts : (separatedLines t).map (fun line => expandTabs 0 (trimEnd line)) = outs := by
      rw [← List.forall₂_eq_eq_eq, List.forall₂_map_left_iff]
      exact hform.imp fun _ _ h => h.expanded.eq.symm
    rw [published_eq_separatedLines, houts]

example : published "\ta\t\tb \t\r\n \n\u2003é\tx".toList =
    "        a               b\r\n\r\n\u2003é      x\r\n".toList := by decide

end ObjectTables.Text
