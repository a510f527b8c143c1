import ObjectTables.Proofs.Text.Published

/-! Line ends and the blanks before them. All that most passes read of a text is its lines without their trailing
    blanks (`trimmedLines`). A carriage return is blank, so a text says the same with one before each line feed
    (`trimmedLines_crlf`), whatever line ends it had. -/

namespace ObjectTables.Text

/-! ### What the lines say -/

/-- The lines of a text without their trailing blanks, and so without their line ends. -/
def trimmedLines (t : Text) : List Text := (rawLines t).map trimEnd

theorem map_trimEnd_lines (t : Text) : (lines t).map trimEnd = trimmedLines t := by
  rw [lines, List.map_map, trimmedLines]
  exact List.map_congr_left fun line _ => trimEnd_chomp line

theorem trimmedLines_append {a : Text} (h : Ended a) (b : Text) :
    trimmedLines (a ++ b) = trimmedLines a ++ trimmedLines b := by
  rw [trimmedLines, rawLines_append h, List.map_append, trimmedLines, trimmedLines]

/-- Publishing a text needs only what its lines say. -/
theorem published_eq (t : Text) : published t = (trimmedLines t).flatMap fun line => expandTabs 0 line ++ lineEnd := by
  rw [← map_trimEnd_lines, List.flatMap_map]
  rfl

theorem published_congr {t u : Text} (h : trimmedLines t = trimmedLines u) : published t = published u := by
  rw [published_eq, h, published_eq]

/-! ### Carriage returns before the line feeds -/

/-- A text with a carriage return put before each of its line feeds. -/
def crlf (t : Text) : Text := t.flatMap fun c => if c = '\n' then ['\r', '\n'] else [c]

theorem crlf_append (t u : Text) : crlf (t ++ u) = crlf t ++ crlf u := List.flatMap_append

theorem crlf_newline : crlf ['\n'] = ['\r', '\n'] := rfl

theorem crlf_of_no_newline {t : Text} (h : '\n' ∉ t) : crlf t = t := by
  induction t with
  | nil => rfl
  | cons c t ih =>
    simp only [List.mem_cons, not_or] at h
    rw [crlf, List.flatMap_cons, if_neg fun hc => h.1 hc.symm, List.singleton_append, ← crlf, ih h.2]

theorem crlf_flatten (ls : List Text) : crlf ls.flatten = (ls.map crlf).flatten := by
  induction ls with
  | nil => rfl
  | cons l ls ih => rw [List.flatten_cons, crlf_append, ih, List.map_cons, List.flatten_cons]

/-- A line ends in a line feed, which gets its carriage return, or it stays as it is. -/
theorem crlf_line {line : Text} (h : '\n' ∉ line.dropLast) :
    crlf line = line ∧ '\n' ∉ line ∨ ∃ x, '\n' ∉ x ∧ line = x ++ ['\n'] ∧ crlf line = x ++ ['\r', '\n'] := by
  rcases List.eq_nil_or_concat line with rfl | ⟨x, c, rfl⟩
  · exact Or.inl ⟨rfl, List.not_mem_nil⟩
  · rw [List.concat_eq_append] at h ⊢
    rw [List.dropLast_concat] at h
    by_cases hc : c = '\n'
    · subst hc
      exact Or.inr ⟨x, h, rfl, by rw [crlf_append, crlf_of_no_newline h, crlf_newline]⟩
    · have hline : '\n' ∉ x ++ [c] := by
        rw [List.mem_append, List.mem_singleton, not_or]
        exact ⟨h, fun he => hc he.symm⟩
      exact Or.inl ⟨crlf_of_no_newline hline, hline⟩

theorem lined_map_crlf {ls : List Text} (h : Lined ls) : Lined (ls.map crlf) where
  line l hl := by
    obtain ⟨m, hm, rfl⟩ := List.mem_map.mp hl
    obtain ⟨hne, hn⟩ := h.line m hm
    rcases crlf_line hn with ⟨he, -⟩ | ⟨x, hx, -, he⟩
    · rw [he]
      exact ⟨hne, hn⟩
    · rw [he]
      simp [hx]
  ended := by
    refine List.pairwise_map.mpr (h.ended.imp_of_mem fun {l m} hl _ hend => ?_)
    rcases crlf_line (h.line l hl).2 with ⟨-, hn⟩ | ⟨x, -, -, he⟩
    · exact absurd (List.mem_of_getLast? hend) hn
    · rw [he]
      simp

/-- The carriage returns change no line but at its end. -/
theorem rawLines_crlf (t : Text) : rawLines (crlf t) = (rawLines t).map crlf := by
  calc rawLines (crlf t) = rawLines (crlf (rawLines t).flatten) := by rw [flatten_rawLines]
    _ = rawLines ((rawLines t).map crlf).flatten := by rw [crlf_flatten]
    _ = (rawLines t).map crlf := (lined_map_crlf (lined_rawLines t)).rawLines_flatten

theorem trimEnd_crlf {line : Text} (h : '\n' ∉ line.dropLast) : trimEnd (crlf line) = trimEnd line := by
  rcases crlf_line h with ⟨he, -⟩ | ⟨x, -, hline, he⟩
  · rw [he]
  · rw [he, hline, trimEnd_append_blanks (lineEnd_isBlank (by simp)), trimEnd_append_blanks (lineEnd_isBlank (by simp))]

@[simp] theorem trimmedLines_crlf (t : Text) : trimmedLines (crlf t) = trimmedLines t := by
  rw [trimmedLines, rawLines_crlf, List.map_map]
  exact List.map_congr_left fun line hline => trimEnd_crlf ((lined_rawLines t).line line hline).2

end ObjectTables.Text
