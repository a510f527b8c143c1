import ObjectTables.Proofs.Text.Shape

/-! Texts in published form. A line without tabs that ends in a word, a carriage return and a line feed is published as
    it is, and every line of a published text is of that kind, so these are the texts that publishing leaves alone
    (`published_eq_self_iff`). Publishing puts a carriage return before each line feed, but takes none away that stands
    before the last word of a line (`returnsPaired_published_iff`). -/

namespace ObjectTables.Text

/-! ### Finished lines -/

/-- A line ends in a carriage return and a line feed, holds no tab and has no blank before its end. -/
def Finished (line : Text) : Prop :=
  ∃ x, line = x ++ ['\r', '\n'] ∧ '\t' ∉ line ∧ ∀ c, x.getLast? = some c → isBlank c = false

theorem trimEnd_of_getLast? {t : Text} (h : ∀ c, t.getLast? = some c → isBlank c = false) : trimEnd t = t := by
  rcases List.eq_nil_or_concat t with rfl | ⟨x, c, rfl⟩
  · rfl
  · rw [List.concat_eq_append] at h ⊢
    exact trimEnd_append_singleton (h c List.getLast?_concat) x

theorem finished_publishedLine (line : Text) : Finished (publishedLine line) := by
  refine ⟨expandTabs 0 (trimEnd line), rfl, fun hmem => ?_, fun _ => not_isBlank_of_getLast?⟩
  rcases List.mem_append.mp hmem with hmem | hmem
  · exact tab_not_mem_expandTabs 0 _ hmem
  · simp [lineEnd] at hmem

theorem Finished.publishedLine_chomp {line : Text} (h : Finished line) : publishedLine (chomp line) = line := by
  obtain ⟨x, rfl, htab, hlast⟩ := h
  have hx : '\t' ∉ x := fun hmem => htab (List.mem_append_left _ hmem)
  rw [chomp_append_crlf, publishedLine, trimEnd_of_getLast? hlast, expandTabs_of_no_tab hx, lineEnd]

theorem finished_of_mem_published {t line : Text} (h : line ∈ rawLines (published t)) : Finished line := by
  rw [rawLines_published] at h
  obtain ⟨x, -, rfl⟩ := List.mem_map.mp h
  exact finished_publishedLine x

theorem published_of_finished {t : Text} (h : ∀ line ∈ rawLines t, Finished line) : published t = t := by
  calc published t = (rawLines t).flatMap fun line => publishedLine (chomp line) := by
        rw [published, lines, List.flatMap_map]
    _ = ((rawLines t).map id).flatten := by
        rw [List.flatMap_def, List.map_congr_left fun line hline => (h line hline).publishedLine_chomp]
        rfl
    _ = t := by rw [List.map_id, flatten_rawLines]

/-- Publishing leaves a text alone if and only if all its lines are finished. -/
theorem published_eq_self_iff {t : Text} : published t = t ↔ ∀ line ∈ rawLines t, Finished line :=
  ⟨fun h _ hline => finished_of_mem_published (h.symm ▸ hline), published_of_finished⟩

/-- To publish a text twice is to publish it once. The texts that publishing leaves alone are those whose lines all end
    in a carriage return and a line feed, hold no tab and have no blank before their ends; and a text whose last line
    is ended can be published apart from what follows it. -/
theorem published_again (t a b : Text) :
    published (published t) = published t ∧
    (published t = t ↔ ∀ line ∈ rawLines t, ∃ x, line = x ++ ['\r', '\n'] ∧ '\t' ∉ line ∧
      ∀ c, x.getLast? = some c → isBlank c = false) ∧
    (a = [] ∨ a.getLast? = some '\n' → published (a ++ b) = published a ++ published b) :=
  ⟨published_of_finished fun _ => finished_of_mem_published, published_eq_self_iff, fun h => published_append h b⟩

theorem published_again_return_in_line :
    "a\t\r\n".toList.getLast? = some '\n' ∧
      published ("a\t\r\n".toList ++ "\rb\tc \r\r\n".toList) = "a\r\n\rb      c\r\n".toList := by
  refine ⟨rfl, ?_⟩
  rw [(published_again [] "a\t\r\n".toList "\rb\tc \r\r\n".toList).2.2 (Or.inr rfl)]
  decide

/-! ### Carriage returns and line feeds -/

/-- Every carriage return of a text is followed by a line feed. -/
def ReturnsPaired (t : Text) : Prop := ∀ a b, t = a ++ '\r' :: b → b.head? = some '\n'

/-- Every line feed of a text follows a carriage return. -/
def FeedsPaired (t : Text) : Prop := ∀ a b, t = a ++ '\n' :: b → a.getLast? = some '\r'

theorem returnsPaired_nil : ReturnsPaired [] := fun _ _ h => by simp at h

theorem feedsPaired_nil : FeedsPaired [] := fun _ _ h => by simp at h

theorem returnsPaired_cons_iff {c : Char} {t : Text} :
    ReturnsPaired (c :: t) ↔ (c = '\r' → t.head? = some '\n') ∧ ReturnsPaired t := by
  constructor
  · refine fun h => ⟨?_, fun a b ht => h (c :: a) b (by rw [ht, List.cons_append])⟩
    rintro rfl
    exact h [] t rfl
  · rintro ⟨hc, ht⟩ a b hab
    rcases List.cons_eq_append_iff.mp hab with ⟨rfl, hb⟩ | ⟨a, rfl, hb⟩
    · obtain ⟨rfl, rfl⟩ := List.cons.inj hb
      exact hc rfl
    · exact ht a b hb

/-- Where a line ends in a carriage return and a line feed, none of its other carriage returns is paired. -/
theorem returnsPaired_line_iff {x : Text} (hx : '\n' ∉ x) (t : Text) :
    ReturnsPaired (x ++ '\r' :: '\n' :: t) ↔ '\r' ∉ x ∧ ReturnsPaired t := by
  induction x with
  | nil => simp [returnsPaired_cons_iff]
  | cons c x ih =>
    simp only [List.mem_cons, not_or] at hx ⊢
    have hhead : (x ++ '\r' :: '\n' :: t).head? ≠ some '\n' := by
      cases x with
      | nil => simp
      | cons d x => simpa [eq_comm] using (not_or.mp (mt List.mem_cons.mpr hx.2)).1
    rw [List.cons_append, returnsPaired_cons_iff, ih hx.2, and_assoc]
    simp only [hhead, imp_false, eq_comm]

theorem FeedsPaired.line {x t : Text} (hx : '\n' ∉ x) (ht : FeedsPaired t) :
    FeedsPaired (x ++ '\r' :: '\n' :: t) := by
  have hline : '\n' ∉ x ++ ['\r'] := by simp [hx]
  rw [FeedsPaired, List.append_cons]
  refine (forall_cut_iff hline).mpr ⟨List.getLast?_concat, fun a b hab => ?_⟩
  rw [List.getLast?_append, List.getLast?_cons, ht a b hab]
  rfl

theorem flatMap_publishedLine (ls : List Text) (line : Text) : (line :: ls).flatMap publishedLine =
    expandTabs 0 (trimEnd line) ++ '\r' :: '\n' :: ls.flatMap publishedLine := by
  simp [publishedLine, lineEnd]

theorem feedsPaired_published (t : Text) : FeedsPaired (published t) := by
  have hlines : ∀ line ∈ lines t, '\n' ∉ line := fun _ => newline_not_mem_of_mem_lines
  unfold published
  generalize lines t = ls at hlines ⊢
  induction ls with
  | nil => exact feedsPaired_nil
  | cons line ls ih =>
    obtain ⟨hline, hls⟩ := List.forall_mem_cons.mp hlines
    rw [flatMap_publishedLine]
    exact (ih hls).line (newline_not_mem_out hline)

/-- The carriage returns of a published text are paired unless a line of the text has one before its last word. -/
theorem returnsPaired_published_iff (t : Text) :
    ReturnsPaired (published t) ↔ ∀ line ∈ lines t, '\r' ∉ trimEnd line := by
  have hlines : ∀ line ∈ lines t, '\n' ∉ line := fun _ => newline_not_mem_of_mem_lines
  unfold published
  generalize lines t = ls at hlines ⊢
  induction ls with
  | nil => simp [returnsPaired_nil]
  | cons line ls ih =>
    obtain ⟨hline, hls⟩ := List.forall_mem_cons.mp hlines
    have hrest : ReturnsPaired (ls.flatMap publishedLine) ↔ ∀ line ∈ ls, '\r' ∉ trimEnd line := ih hls
    rw [flatMap_publishedLine, returnsPaired_line_iff (newline_not_mem_out hline),
      mem_expandTabs_iff (by decide) (by decide), hrest, List.forall_mem_cons]

/-- Every line feed of a published text follows a carriage return. Every carriage return is followed by a line feed if
    and only if no line of the text holds one before its last word. -/
theorem line_ends_paired (t : Text) :
    (∀ a b, published t = a ++ '\n' :: b → a.getLast? = some '\r') ∧
    ((∀ a b, published t = a ++ '\r' :: b → b.head? = some '\n') ↔ ∀ line ∈ lines t, '\r' ∉ trimEnd line) :=
  ⟨feedsPaired_published t, returnsPaired_published_iff t⟩

theorem bare_return_published :
    ¬∀ t, (∀ a b, published t = a ++ '\r' :: b → b.head? = some '\n') ∧
      ∀ a b, published t = a ++ '\n' :: b → a.getLast? = some '\r' := fun h =>
  absurd ((h "a\rb\n".toList).1 ['a'] ['b', '\r', '\n'] (by decide)) (by decide)

end ObjectTables.Text
