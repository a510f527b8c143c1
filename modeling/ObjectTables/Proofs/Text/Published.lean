import ObjectTables.Text.Published
import ObjectTables.Proofs.Text.Line

/-! The published form of a text, line by line. Publishing keeps the number of lines and where they are cut
    (`rawLines_published`), so it can be done part by part (`published_append`); within a line it changes
    blanks only (`words_expandTabs`). -/

namespace ObjectTables.Text

/-! ### Tabs -/

theorem tabPad_pos (column : Nat) : 0 < tabWidth - column % tabWidth := by
  have : column % tabWidth < tabWidth := Nat.mod_lt _ (by decide)
  omega

theorem expandTabs_tab (column : Nat) (t : Text) :
    expandTabs column ('\t' :: t) = List.replicate (tabWidth - column % tabWidth) ' ' ++
      expandTabs (column + (tabWidth - column % tabWidth)) t := by
  simp [expandTabs]

theorem expandTabs_cons {c : Char} (hc : c ≠ '\t') (column : Nat) (t : Text) :
    expandTabs column (c :: t) = c :: expandTabs (column + 1) t := by
  simp [expandTabs, hc]

/-- A tab becomes a space and perhaps more of them. -/
theorem expandTabs_tab_cons (column : Nat) (t : Text) :
    ∃ pad column', expandTabs column ('\t' :: t) = ' ' :: (List.replicate pad ' ' ++ expandTabs column' t) := by
  obtain ⟨pad, hpad⟩ := Nat.exists_eq_add_one.mpr (tabPad_pos column)
  exact ⟨pad, _, by rw [expandTabs_tab, hpad, List.replicate_succ, List.cons_append]⟩

theorem isBlank_of_mem_spaces {n : Nat} : ∀ c ∈ List.replicate n ' ', isBlank c = true := by
  intro c hc
  rw [(List.mem_replicate.mp hc).2]
  decide

theorem expandTabs_of_no_tab {t : Text} (h : '\t' ∉ t) (column : Nat) : expandTabs column t = t := by
  induction t generalizing column with
  | nil => rfl
  | cons c t ih =>
    simp only [List.mem_cons, not_or] at h
    rw [expandTabs_cons (fun hc => h.1 hc.symm), ih h.2]

/-- Only tabs are taken away and only spaces put in their places. -/
theorem mem_expandTabs_iff {c : Char} (htab : c ≠ '\t') (hspace : c ≠ ' ') {column : Nat} {t : Text} :
    c ∈ expandTabs column t ↔ c ∈ t := by
  induction t generalizing column with
  | nil => rfl
  | cons d t ih =>
    by_cases hd : d = '\t'
    · subst hd
      simp [expandTabs_tab, ih, htab, hspace]
    · rw [expandTabs_cons hd, List.mem_cons, ih, List.mem_cons]

/-- The column in which a line goes on is the one it started in and the number of characters written since. -/
theorem expandTabs_append (column : Nat) (x y : Text) : expandTabs column (x ++ y) =
    expandTabs column x ++ expandTabs (column + (expandTabs column x).length) y := by
  induction x generalizing column with
  | nil => rfl
  | cons c x ih =>
    by_cases hc : c = '\t'
    · subst hc
      rw [List.cons_append, expandTabs_tab, ih, expandTabs_tab, List.append_assoc, List.length_append,
        List.length_replicate, Nat.add_assoc]
    · rw [List.cons_append, expandTabs_cons hc, ih, expandTabs_cons hc, List.cons_append, List.length_cons,
        Nat.add_assoc, Nat.add_comm 1]

/-- A tab and the spaces in its place separate the same words. The word before it may have begun
    already: `x` is what stands there. -/
theorem words_append_expandTabs (x : Text) (column : Nat) (t : Text) :
    words (x ++ expandTabs column t) = words (x ++ t) := by
  induction t generalizing x column with
  | nil => rfl
  | cons c t ih =>
    by_cases hc : c = '\t'
    · subst hc
      obtain ⟨pad, column', he⟩ := expandTabs_tab_cons column t
      rw [he, words_append_blank (by decide), words_append_blank (by decide),
        words_blanks_append isBlank_of_mem_spaces]
      exact congrArg (words x ++ ·) (ih [] column')
    · rw [expandTabs_cons hc, List.append_cons, ih, ← List.append_cons]

@[simp] theorem words_expandTabs (column : Nat) (t : Text) : words (expandTabs column t) = words t :=
  words_append_expandTabs [] column t

/-! ### Lines -/

theorem newline_not_mem_trimEnd {t : Text} (h : '\n' ∉ t) : '\n' ∉ trimEnd t := by
  obtain ⟨b, hb, -⟩ := exists_trimEnd_append t
  exact fun hmem => h (hb ▸ List.mem_append_left _ hmem)

theorem newline_not_mem_out {line : Text} (h : '\n' ∉ line) : '\n' ∉ expandTabs 0 (trimEnd line) :=
  mt (mem_expandTabs_iff (by decide) (by decide)).mp (newline_not_mem_trimEnd h)

theorem publishedLine_eq {line : Text} (h : '\n' ∉ line) :
    ∃ x, '\n' ∉ x ∧ publishedLine line = x ++ ['\n'] := by
  refine ⟨expandTabs 0 (trimEnd line) ++ ['\r'], ?_, by simp [publishedLine, lineEnd]⟩
  rw [List.mem_append, not_or]
  exact ⟨newline_not_mem_out h, by decide⟩

theorem rawLines_published (t : Text) : rawLines (published t) = (lines t).map publishedLine := by
  rw [published, List.flatMap_def]
  refine (lined_of_forall fun l hl => ?_).rawLines_flatten
  obtain ⟨line, hline, rfl⟩ := List.mem_map.mp hl
  exact publishedLine_eq (newline_not_mem_of_mem_lines hline)

theorem lines_published (t : Text) : lines (published t) = (lines t).map (expandTabs 0 ∘ trimEnd) := by
  rw [lines, rawLines_published, List.map_map]
  exact List.map_congr_left fun line _ => chomp_append_crlf _

theorem published_append {a : Text} (h : Ended a) (b : Text) : published (a ++ b) = published a ++ published b := by
  rw [published, lines_append h, List.flatMap_append, published, published]

/-- A line without tabs that ends in a word is published as it is. -/
theorem published_line {x word : Text} (hn : '\n' ∉ x) (ht : '\t' ∉ x) (hne : word ≠ [])
    (hword : ∀ c ∈ word, isBlank c = false) : published (x ++ word ++ ['\n']) = x ++ word ++ lineEnd := by
  have absent : ∀ d, isBlank d = true → d ∉ x → d ∉ x ++ word := fun d hd hx hmem =>
    (List.mem_append.mp hmem).elim hx fun hw => by
      rw [hword d hw] at hd
      cases hd
  obtain ⟨y, c, hc⟩ := (List.eq_nil_or_concat word).resolve_left hne
  rw [List.concat_eq_append] at hc
  have hlast : isBlank c = false := hword c (by simp [hc])
  have htrim : trimEnd (x ++ word ++ ['\n']) = x ++ word := by
    rw [trimEnd_append_blanks (lineEnd_isBlank (Or.inr (Or.inl rfl))), hc, ← List.append_assoc,
      trimEnd_append_singleton hlast]
  rw [published, lines, rawLines_line (absent '\n' (by decide) hn), List.map_singleton, List.flatMap_singleton,
    publishedLine, trimEnd_chomp, htrim, expandTabs_of_no_tab (absent '\t' (by decide) ht)]

end ObjectTables.Text
