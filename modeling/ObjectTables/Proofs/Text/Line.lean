import ObjectTables.Text.Line
import ObjectTables.Proofs.Text.Word

/-! The lines of a text. Texts that hold a line feed at most at their end, and all but the last of them
    there, are the lines of what they make up (`Lined.rawLines_flatten`). So a cut between two lines cuts
    the list of lines (`rawLines_cut`), lines can be left out, and a text that ends in a line feed can be
    followed by another (`rawLines_append`). Without their line ends they are what `HasLines` says
    (`hasLines_iff`). -/

namespace ObjectTables.Text

/-- A text whose last line is ended. -/
def Ended (t : Text) : Prop := t = [] ∨ t.getLast? = some '\n'

theorem Ended.tail {c : Char} {t : Text} (h : Ended (c :: t)) : Ended t := by
  cases t with
  | nil => exact Or.inl rfl
  | cons d t => exact Or.inr (by simpa [Ended] using h)

theorem Ended.append {a b : Text} (ha : Ended a) (hb : Ended b) : Ended (a ++ b) := by
  rcases hb with rfl | hb
  · rwa [List.append_nil]
  · exact Or.inr (by rw [List.getLast?_append, hb]; rfl)

theorem ended_append_newline (t : Text) : Ended (t ++ ['\n']) := Or.inr List.getLast?_concat

theorem rawLines_newline (t : Text) : rawLines ('\n' :: t) = ['\n'] :: rawLines t := by simp [rawLines]

theorem rawLines_cons {c : Char} (hc : c ≠ '\n') {t line : Text} {more : List Text}
    (h : rawLines t = line :: more) : rawLines (c :: t) = (c :: line) :: more := by simp [rawLines, hc, h]

theorem rawLines_eq_nil_iff {t : Text} : rawLines t = [] ↔ t = [] := by
  constructor
  · intro h
    rw [← flatten_rawLines t, h, List.flatten_nil]
  · rintro rfl
    rfl

theorem exists_rawLines_cons {t : Text} (h : t ≠ []) : ∃ line more, rawLines t = line :: more :=
  List.exists_cons_of_ne_nil fun hnil => h (rawLines_eq_nil_iff.mp hnil)

theorem rawLines_singleton {c : Char} (hc : c ≠ '\n') : rawLines [c] = [[c]] := by simp [rawLines, hc]

theorem rawLines_append {a : Text} (h : Ended a) (b : Text) : rawLines (a ++ b) = rawLines a ++ rawLines b := by
  induction a with
  | nil => rfl
  | cons c a ih =>
    by_cases hc : c = '\n'
    · subst hc
      rw [List.cons_append, rawLines_newline, rawLines_newline, ih h.tail, List.cons_append]
    · have hne : a ≠ [] := by
        rintro rfl
        simp [Ended, hc] at h
      obtain ⟨line, more, hl⟩ := exists_rawLines_cons hne
      rw [List.cons_append, rawLines_cons hc hl, rawLines_cons hc (by rw [ih h.tail, hl, List.cons_append]),
        List.cons_append]

theorem rawLines_line {x : Text} (hx : '\n' ∉ x) (c : Char) : rawLines (x ++ [c]) = [x ++ [c]] := by
  induction x with
  | nil =>
    by_cases hc : c = '\n'
    · rw [hc]
      rfl
    · exact rawLines_singleton hc
  | cons d x ih =>
    simp only [List.mem_cons, not_or] at hx
    exact rawLines_cons (fun h => hx.1 h.symm) (ih hx.2)

theorem rawLines_eq_singleton {x : Text} (hne : x ≠ []) (hx : '\n' ∉ x.dropLast) : rawLines x = [x] := by
  rw [← List.dropLast_concat_getLast hne, rawLines_line hx]

theorem rawLines_last {x : Text} (hne : x ≠ []) (hx : '\n' ∉ x) : rawLines x = [x] :=
  rawLines_eq_singleton hne fun hmem => hx ((List.dropLast_sublist x).subset hmem)

/-- A text is empty, or free of a character, or cut at the first place where it stands. -/
theorem cut_induction (c : Char) {P : Text → Prop} (nil : P []) (last : ∀ x, x ≠ [] → c ∉ x → P x)
    (cut : ∀ x t, c ∉ x → P t → P (x ++ c :: t)) (t : Text) : P t := by
  induction h : t.length using Nat.strongRecOn generalizing t with
  | ind n ih =>
    by_cases hmem : c ∈ t
    · obtain ⟨x, u, rfl, hx⟩ := List.eq_append_cons_of_mem hmem
      refine cut x u hx (ih u.length ?_ u rfl)
      rw [← h, List.length_append, List.length_cons]
      omega
    · by_cases hne : t = []
      · rw [hne]
        exact nil
      · exact last t hne hmem

/-- A text is empty, or one line that is not ended, or a line with its line feed and a text after it. -/
theorem line_induction {P : Text → Prop} (nil : P []) (last : ∀ x, x ≠ [] → '\n' ∉ x → P x)
    (line : ∀ x t, '\n' ∉ x → P t → P (x ++ '\n' :: t)) (t : Text) : P t := cut_induction '\n' nil last line t

theorem append_cons_inj {c : Char} {x y t u : Text} (hx : c ∉ x) (hy : c ∉ y) :
    x ++ c :: t = y ++ c :: u ↔ x = y ∧ t = u := by
  constructor
  · intro h
    have hsplit := congrArg (List.splitOn c) h
    rw [List.splitOn_append_cons_self_of_not_mem hx, List.splitOn_append_cons_self_of_not_mem hy] at hsplit
    obtain rfl := (List.cons.inj hsplit).1
    exact ⟨rfl, (List.cons.inj (List.append_cancel_left h)).2⟩
  · rintro ⟨rfl, rfl⟩
    rfl

/-- A character stands in a text at the first place where it does and at its places after that. -/
theorem forall_cut_iff {c : Char} {x : Text} (hx : c ∉ x) {t : Text} {Q : Text → Text → Prop} :
    (∀ a b, x ++ c :: t = a ++ c :: b → Q a b) ↔ Q x t ∧ ∀ a b, t = a ++ c :: b → Q (x ++ c :: a) b := by
  constructor
  · refine fun h => ⟨h x t rfl, ?_⟩
    rintro a b rfl
    exact h (x ++ c :: a) b (by simp)
  · rintro ⟨hfirst, hmore⟩ a b hab
    rcases List.append_eq_append_iff.mp hab with ⟨d, rfl, hd⟩ | ⟨d, rfl, hd⟩
    · cases d with
      | nil =>
        rw [List.append_nil, ← (List.cons.inj hd).2]
        exact hfirst
      | cons e d =>
        obtain ⟨rfl, ht⟩ := List.cons.inj hd
        exact hmore d b ht
    · cases d with
      | nil =>
        rw [List.append_nil] at hfirst
        rw [(List.cons.inj hd).2]
        exact hfirst
      | cons e d =>
        rw [← (List.cons.inj hd).1] at hx
        simp at hx

/-- Each text is a line: a line feed stands at its end or not at all. All but the last are ended. -/
structure Lined (ls : List Text) : Prop where
  line : ∀ l ∈ ls, l ≠ [] ∧ '\n' ∉ l.dropLast
  ended : ls.Pairwise fun l _ => l.getLast? = some '\n'

theorem Lined.sublist {ls ls' : List Text} (h : Lined ls) (hs : ls'.Sublist ls) : Lined ls' where
  line l hl := h.line l (hs.subset hl)
  ended := h.ended.sublist hs

theorem Lined.rawLines_flatten {ls : List Text} (h : Lined ls) : rawLines ls.flatten = ls := by
  induction ls with
  | nil => rfl
  | cons l ls ih =>
    obtain ⟨hne, hn⟩ := h.line l List.mem_cons_self
    have hl : rawLines l = [l] := rawLines_eq_singleton hne hn
    have hls := ih (h.sublist (List.sublist_cons_self l ls))
    cases ls with
    | nil => rwa [List.flatten_cons, List.flatten_nil, List.append_nil]
    | cons m ls =>
      have hend : Ended l := Or.inr (List.rel_of_pairwise_cons h.ended List.mem_cons_self)
      rw [List.flatten_cons, rawLines_append hend, hl, hls, List.singleton_append]

theorem lined_rawLines (t : Text) : Lined (rawLines t) := by
  induction t with
  | nil => exact ⟨by simp, List.Pairwise.nil⟩
  | cons c t ih =>
    by_cases hc : c = '\n'
    · subst hc
      rw [rawLines_newline]
      exact ⟨fun l hl => (List.mem_cons.mp hl).elim (fun h => by simp [h]) (ih.line l),
        ih.ended.cons fun _ _ => rfl⟩
    · by_cases ht : t = []
      · subst ht
        rw [rawLines_singleton hc]
        exact ⟨by simp, List.pairwise_singleton _ _⟩
      · obtain ⟨first, more, hl⟩ := exists_rawLines_cons ht
        rw [hl] at ih
        rw [rawLines_cons hc hl]
        obtain ⟨hne, hn⟩ := ih.line first List.mem_cons_self
        refine ⟨fun l hl => ?_, List.pairwise_cons.mpr ⟨fun l hl => ?_, (List.pairwise_cons.mp ih.ended).2⟩⟩
        · rcases List.mem_cons.mp hl with rfl | hl
          · rw [List.dropLast_cons_of_ne_nil hne, List.mem_cons, not_or]
            exact ⟨by simp, fun he => hc he.symm, hn⟩
          · exact ih.line l (List.mem_cons_of_mem _ hl)
        · rw [List.getLast?_cons, (List.pairwise_cons.mp ih.ended).1 l hl]
          rfl

theorem lined_of_forall {ls : List Text} (h : ∀ l ∈ ls, ∃ x, '\n' ∉ x ∧ l = x ++ ['\n']) : Lined ls where
  line l hl := by
    obtain ⟨x, hx, rfl⟩ := h l hl
    simp [hx]
  ended := List.pairwise_of_forall_mem_list fun l hl _ _ => by
    obtain ⟨x, -, rfl⟩ := h l hl
    exact List.getLast?_concat

theorem ended_flatten {ls : List Text} (h : ∀ l ∈ ls, l.getLast? = some '\n') : Ended ls.flatten := by
  induction ls with
  | nil => exact Or.inl rfl
  | cons l ls ih =>
    exact Ended.append (Or.inr (h l List.mem_cons_self)) (ih fun l hl => h l (List.mem_cons_of_mem _ hl))

theorem Ended.getLast?_of_mem {line t : Text} (h : Ended t) (hline : line ∈ rawLines t) :
    line.getLast? = some '\n' := by
  -- with another line after it, no line of the text is the last one
  have hlined := lined_rawLines (t ++ ['\n'])
  rw [rawLines_append h, rawLines_newline] at hlined
  exact (List.pairwise_append.mp hlined.ended).2.2 line hline ['\n'] List.mem_cons_self

/-- A cut between two lines of a text leaves the lines of both parts as they are, and ends the first part. -/
theorem rawLines_cut {t : Text} {a b : List Text} (h : rawLines t = a ++ b) :
    rawLines a.flatten = a ∧ rawLines b.flatten = b ∧ (b = [] ∨ Ended a.flatten) := by
  have hlined : Lined (a ++ b) := h ▸ lined_rawLines t
  refine ⟨(hlined.sublist (List.sublist_append_left a b)).rawLines_flatten,
    (hlined.sublist (List.sublist_append_right a b)).rawLines_flatten, ?_⟩
  cases b with
  | nil => exact Or.inl rfl
  | cons m b =>
    exact Or.inr (ended_flatten fun l hl => (List.pairwise_append.mp hlined.ended).2.2 l hl m List.mem_cons_self)

/-- Ending the last line of a text changes no other line. -/
theorem rawLines_append_newline {t : Text} (h : ¬Ended t) :
    ∃ ls l, rawLines t = ls ++ [l] ∧ rawLines (t ++ ['\n']) = ls ++ [l ++ ['\n']] := by
  have hne : rawLines t ≠ [] := fun hnil => h (Or.inl (rawLines_eq_nil_iff.mp hnil))
  obtain ⟨ls, l, hl⟩ := (List.eq_nil_or_concat (rawLines t)).resolve_left hne
  rw [List.concat_eq_append] at hl
  refine ⟨ls, l, hl, ?_⟩
  have hlined : Lined (ls ++ [l]) := hl ▸ lined_rawLines t
  have ht : t = ls.flatten ++ l := by rw [← flatten_rawLines t, hl]; simp
  obtain ⟨hlne, hn⟩ := hlined.line l (by simp)
  have hlast : '\n' ∉ l := fun hmem => by
    rw [← List.dropLast_concat_getLast hlne] at hmem
    rcases List.mem_append.mp hmem with hmem | hmem
    · exact hn hmem
    · refine h (Or.inr ?_)
      rw [ht, List.getLast?_append, List.getLast?_eq_some_getLast hlne, ← List.mem_singleton.mp hmem]
      rfl
  have hls : Ended ls.flatten :=
    ended_flatten fun m hm => (List.pairwise_append.mp hlined.ended).2.2 m hm l List.mem_cons_self
  rw [ht, List.append_assoc, rawLines_append hls,
    (hlined.sublist (List.sublist_append_left ls [l])).rawLines_flatten, rawLines_line hlast]

/-! ### Line ends -/

/-- A line is what it says, and then its line end: a line feed, with or without a carriage return, or
    nothing. -/
theorem chomp_append_lineEnd (line : Text) :
    ∃ e, line = chomp line ++ e ∧ (e = [] ∨ e = ['\n'] ∨ e = ['\r', '\n']) ∧
      (e = [] → line.getLast? ≠ some '\n') := by
  unfold chomp
  split
  · next rest h =>
    refine ⟨['\r', '\n'], ?_, by simp, by simp⟩
    rw [← List.reverse_reverse line, h]
    simp
  · next rest _ h =>
    refine ⟨['\n'], ?_, by simp, by simp⟩
    rw [← List.reverse_reverse line, h]
    simp
  · next h =>
    refine ⟨[], by simp, by simp, fun _ hl => ?_⟩
    obtain ⟨x, rfl⟩ := List.getLast?_eq_some_iff.mp hl
    exact h x.reverse (by simp)

@[simp] theorem chomp_append_crlf (x : Text) : chomp (x ++ ['\r', '\n']) = x := by simp [chomp]

theorem lineEnd_isBlank {e : Text} (h : e = [] ∨ e = ['\n'] ∨ e = ['\r', '\n']) : ∀ c ∈ e, isBlank c = true := by
  refine List.all_eq_true.mp ?_
  rcases h with rfl | rfl | rfl
  · rfl
  · rfl
  · rfl

@[simp] theorem trimEnd_chomp (line : Text) : trimEnd (chomp line) = trimEnd line := by
  obtain ⟨e, he, hend, -⟩ := chomp_append_lineEnd line
  rw [← trimEnd_append_blanks (lineEnd_isBlank hend) (chomp line), ← he]

/-- A line end belongs to no word. -/
@[simp] theorem words_chomp (line : Text) : words (chomp line) = words line := by
  rw [← words_trimEnd, trimEnd_chomp, words_trimEnd]

theorem newline_not_mem_chomp {line t : Text} (h : line ∈ rawLines t) : '\n' ∉ chomp line := by
  obtain ⟨e, he, hend, hlast⟩ := chomp_append_lineEnd line
  have hdrop := ((lined_rawLines t).line line h).2
  intro hmem
  rcases hend with rfl | rfl | rfl
  · rw [← he.trans (List.append_nil _)] at hmem
    rw [← List.dropLast_concat_getLast (List.ne_nil_of_mem hmem)] at hmem
    rcases List.mem_append.mp hmem with hmem | hmem
    · exact hdrop hmem
    · rw [List.mem_singleton] at hmem
      exact hlast rfl (hmem ▸ List.getLast?_eq_some_getLast _)
  · rw [he, List.dropLast_concat] at hdrop
    exact hdrop hmem
  · rw [he, List.dropLast_append_of_ne_nil (by simp)] at hdrop
    exact hdrop (List.mem_append_left _ hmem)

theorem newline_not_mem_of_mem_lines {line t : Text} (h : line ∈ lines t) : '\n' ∉ line := by
  obtain ⟨raw, hraw, rfl⟩ := List.mem_map.mp h
  exact newline_not_mem_chomp hraw

theorem lines_append {a : Text} (h : Ended a) (b : Text) : lines (a ++ b) = lines a ++ lines b := by
  rw [lines, rawLines_append h, List.map_append, lines, lines]

/-! ### Lines without their line ends -/

/-- The lines of a text. A line ends before a line feed, or before a carriage return and a line feed, and what follows
    the last line feed is a line too unless it is empty. -/
inductive HasLines : Text → List Text → Prop where
  | nil : HasLines [] []
  | last {x : Text} : x ≠ [] → '\n' ∉ x → HasLines x [x]
  | feed {x t : Text} {ls : List Text} : '\n' ∉ x → x.getLast? ≠ some '\r' → HasLines t ls →
      HasLines (x ++ '\n' :: t) (x :: ls)
  | returnFeed {x t : Text} {ls : List Text} : '\n' ∉ x → HasLines t ls →
      HasLines (x ++ '\r' :: '\n' :: t) (x :: ls)

theorem chomp_append_newline {x : Text} (h : x.getLast? ≠ some '\r') : chomp (x ++ ['\n']) = x := by
  rcases List.eq_nil_or_concat x with rfl | ⟨y, c, rfl⟩
  · rfl
  · have hc : c ≠ '\r' := by simpa using h
    simp [chomp, hc]

theorem chomp_of_no_newline {x : Text} (h : '\n' ∉ x) : chomp x = x := by
  obtain ⟨e, he, hend, -⟩ := chomp_append_lineEnd x
  rcases hend with rfl | rfl | rfl
  · simpa using he.symm
  · exact absurd (he ▸ List.mem_append_right _ (List.mem_singleton_self '\n')) h
  · exact absurd (he ▸ List.mem_append_right _ (by simp)) h

theorem lines_line {x : Text} (hx : '\n' ∉ x) (t : Text) : lines (x ++ '\n' :: t) = chomp (x ++ ['\n']) :: lines t := by
  rw [List.append_cons, lines_append (ended_append_newline x), lines, rawLines_line hx, List.map_singleton,
    List.singleton_append]

theorem lines_last {x : Text} (hne : x ≠ []) (hx : '\n' ∉ x) : lines x = [x] := by
  rw [lines, rawLines_last hne hx, List.map_singleton, chomp_of_no_newline hx]

theorem hasLines_iff {t : Text} {ls : List Text} : HasLines t ls ↔ ls = lines t := by
  constructor
  · intro h
    induction h with
    | nil => rfl
    | last hne hx => rw [lines_last hne hx]
    | feed hx hlast _ ih => rw [lines_line hx, chomp_append_newline hlast, ih]
    | @returnFeed x t ls hx _ ih =>
      have hx' : '\n' ∉ x ++ ['\r'] := by simp [hx]
      rw [List.append_cons, lines_line hx', List.append_assoc, List.singleton_append, chomp_append_crlf, ih]
  · rintro rfl
    induction t using line_induction with
    | nil => exact HasLines.nil
    | last x hne hx =>
      rw [lines_last hne hx]
      exact HasLines.last hne hx
    | line x t hx ih =>
      rw [lines_line hx]
      by_cases hlast : x.getLast? = some '\r'
      · obtain ⟨y, rfl⟩ := List.getLast?_eq_some_iff.mp hlast
        simp only [List.append_assoc, List.singleton_append, chomp_append_crlf]
        exact HasLines.returnFeed (fun hy => hx (List.mem_append_left _ hy)) ih
      · rw [chomp_append_newline hlast]
        exact HasLines.feed hx hlast ih

end ObjectTables.Text
