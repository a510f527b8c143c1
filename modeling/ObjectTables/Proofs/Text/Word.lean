import ObjectTables.Text.Blank

/-! The words of a text and its blanks. Splitting at a blank splits the words (`words_append_blank`);
    everything else about `words` follows from that equation. Trimming a text takes blanks off its ends,
    so it changes neither its words nor the marks it begins with. The first word comes after the leading
    blanks (`head?_words_eq_some_iff`). -/

namespace ObjectTables.Text

theorem not_isBlank_of_all {t : Text} (h : t.all (!isBlank ·) = true) : ∀ c ∈ t, isBlank c = false := by
  intro c hc
  simpa using List.all_eq_true.mp h c hc

/-! ### Words -/

@[simp] theorem words_nil : words [] = [] := rfl

/-- A blank separates the words before it from those after it. -/
theorem words_append_blank {c : Char} (hc : isBlank c = true) (x y : Text) :
    words (x ++ c :: y) = words x ++ words y := by
  unfold words
  rw [List.splitOnP_append_cons x y hc, List.filter_append]

theorem words_cons_blank {c : Char} (hc : isBlank c = true) (y : Text) : words (c :: y) = words y :=
  words_append_blank hc [] y

theorem words_eq_nil {t : Text} (h : ∀ c ∈ t, isBlank c = true) : words t = [] := by
  induction t with
  | nil => rfl
  | cons c t ih =>
    rw [words_cons_blank (h c List.mem_cons_self)]
    exact ih fun d hd => h d (List.mem_cons_of_mem _ hd)

/-- Blanks before a text belong to no word. -/
theorem words_blanks_append {b : Text} (h : ∀ c ∈ b, isBlank c = true) (t : Text) :
    words (b ++ t) = words t := by
  induction b with
  | nil => rfl
  | cons c b ih =>
    rw [List.cons_append, words_cons_blank (h c List.mem_cons_self)]
    exact ih fun d hd => h d (List.mem_cons_of_mem _ hd)

theorem words_append_blanks {b : Text} (h : ∀ c ∈ b, isBlank c = true) (t : Text) :
    words (t ++ b) = words t := by
  cases b with
  | nil => rw [List.append_nil]
  | cons c b =>
    rw [words_append_blank (h c List.mem_cons_self), words_eq_nil fun d hd => h d (List.mem_cons_of_mem _ hd),
      List.append_nil]

theorem words_of_forall_not {w : Text} (hne : w ≠ []) (h : ∀ c ∈ w, isBlank c = false) : words w = [w] := by
  unfold words
  rw [List.splitOnP_eq_singleton h]
  simp [hne]

theorem forall_mem_splitOnPPrepend {α : Type} {p : α → Bool} {acc : List α} (hacc : ∀ c ∈ acc, p c = false)
    (t : List α) : ∀ w ∈ t.splitOnPPrepend p acc, ∀ c ∈ w, p c = false := by
  induction t generalizing acc with
  | nil => simpa using hacc
  | cons x t ih =>
    rw [List.splitOnPPrepend_cons_eq_if]
    split
    · intro w hw
      rcases List.mem_cons.mp hw with rfl | hw
      · simpa using hacc
      · exact ih (by simp) w hw
    · next hx => exact ih (by simpa [hx] using hacc)

theorem not_isBlank_of_mem_words {t w : Text} (h : w ∈ words t) : ∀ c ∈ w, isBlank c = false :=
  forall_mem_splitOnPPrepend (by simp) t w (List.mem_filter.mp h).1

/-! ### Trimming -/

/-- A text is its trimmed form and the blanks after it. -/
theorem exists_trimEnd_append (t : Text) : ∃ b, t = trimEnd t ++ b ∧ ∀ c ∈ b, isBlank c = true := by
  refine ⟨(t.reverse.takeWhile isBlank).reverse, ?_, fun c hc => ?_⟩
  · unfold trimEnd
    rw [← List.reverse_append, List.takeWhile_append_dropWhile, List.reverse_reverse]
  · exact List.all_eq_true.mp List.all_takeWhile c (List.mem_reverse.mp hc)

theorem trimEnd_append_blanks {b : Text} (h : ∀ c ∈ b, isBlank c = true) (t : Text) :
    trimEnd (t ++ b) = trimEnd t := by
  unfold trimEnd
  rw [List.reverse_append, List.dropWhile_append_of_pos fun c hc => h c (List.mem_reverse.mp hc)]

theorem trimEnd_append_cons {c : Char} (hc : isBlank c = false) (x y : Text) :
    trimEnd (x ++ c :: y) = x ++ c :: trimEnd y := by
  unfold trimEnd
  rw [List.reverse_append, List.reverse_cons, List.append_assoc, List.dropWhile_append]
  split
  · next h => simp [List.isEmpty_iff.mp h, hc]
  · simp

theorem trimEnd_append_singleton {c : Char} (hc : isBlank c = false) (x : Text) : trimEnd (x ++ [c]) = x ++ [c] :=
  trimEnd_append_cons hc x []

theorem trimEnd_eq_nil {t : Text} (h : ∀ c ∈ t, isBlank c = true) : trimEnd t = [] := trimEnd_append_blanks h []

theorem trimStart_eq_nil {t : Text} (h : ∀ c ∈ t, isBlank c = true) : trimStart t = [] := by
  rw [trimStart, ← List.append_nil t, List.dropWhile_append_of_pos h, List.dropWhile_nil]

theorem trimStart_append_cons {c : Char} (hc : isBlank c = false) (x y : Text) :
    trimStart (x ++ c :: y) = trimStart x ++ c :: y := by
  unfold trimStart
  rw [List.dropWhile_append]
  split
  · next h => simp [List.isEmpty_iff.mp h, hc]
  · rfl

/-- A text is blank, or it has a last character that is not. -/
theorem blank_or_last (t : Text) : (∀ c ∈ t, isBlank c = true) ∨
    ∃ x c b, t = x ++ c :: b ∧ isBlank c = false ∧ ∀ d ∈ b, isBlank d = true := by
  induction t with
  | nil => simp
  | cons c t ih =>
    rcases ih with hblank | ⟨x, d, b, rfl, hd, hb⟩
    · cases hc : isBlank c with
      | true => exact Or.inl (by simpa [hc] using hblank)
      | false => exact Or.inr ⟨[], c, t, rfl, hc, hblank⟩
    · exact Or.inr ⟨c :: x, d, b, rfl, hd, hb⟩

theorem trimStart_trimEnd (t : Text) : trimStart (trimEnd t) = trimEnd (trimStart t) := by
  rcases blank_or_last t with h | ⟨x, c, b, rfl, hc, hb⟩
  · rw [trimEnd_eq_nil h, trimStart_eq_nil h]
    rfl
  · rw [trimEnd_append_cons hc, trimEnd_eq_nil hb, trimStart_append_cons hc, trimStart_append_cons hc,
      trimEnd_append_cons hc, trimEnd_eq_nil hb]

theorem head?_trimEnd {t : Text} (h : words t ≠ []) : (trimEnd t).head? = t.head? := by
  rcases blank_or_last t with hb | ⟨x, c, b, rfl, hc, -⟩
  · exact absurd (words_eq_nil hb) h
  · rw [trimEnd_append_cons hc]
    cases x <;> rfl

@[simp] theorem trimEnd_trimEnd (t : Text) : trimEnd (trimEnd t) = trimEnd t := by
  obtain ⟨b, hb, hblank⟩ := exists_trimEnd_append t
  rw [← trimEnd_append_blanks hblank (trimEnd t), ← hb]

@[simp] theorem words_trimEnd (t : Text) : words (trimEnd t) = words t := by
  obtain ⟨b, hb, hblank⟩ := exists_trimEnd_append t
  rw [← words_append_blanks hblank (trimEnd t), ← hb]

/-! ### The first word -/

theorem trimStart_blanks_append {b : Text} (h : ∀ c ∈ b, isBlank c = true) (t : Text) :
    trimStart (b ++ t) = trimStart t :=
  List.dropWhile_append_of_pos h

theorem trimStart_cons {c : Char} (hc : isBlank c = false) (t : Text) : trimStart (c :: t) = c :: t := by
  simp [trimStart, hc]

theorem exists_append_trimStart (t : Text) : ∃ b, t = b ++ trimStart t ∧ ∀ c ∈ b, isBlank c = true :=
  ⟨t.takeWhile isBlank, List.takeWhile_append_dropWhile.symm, List.all_eq_true.mp List.all_takeWhile⟩

theorem trimStart_eq_cons {c : Char} {t u : Text} (h : trimStart t = c :: u) : isBlank c = false := by
  have hhead := List.head?_dropWhile_not isBlank t
  rwa [← trimStart, h] at hhead

/-- A text is blank, or it has a first word. -/
theorem blank_or_first (t : Text) : (∀ c ∈ t, isBlank c = true) ∨
    ∃ b w r, t = b ++ w ++ r ∧ (∀ c ∈ b, isBlank c = true) ∧ w ≠ [] ∧ (∀ c ∈ w, isBlank c = false) ∧
      ∀ c, r.head? = some c → isBlank c = true := by
  obtain ⟨b, ht, hb⟩ := exists_append_trimStart t
  cases htrim : trimStart t with
  | nil =>
    left
    rwa [ht, htrim, List.append_nil]
  | cons c u =>
    right
    refine ⟨b, c :: u.takeWhile (!isBlank ·), u.dropWhile (!isBlank ·), ?_, hb, List.cons_ne_nil _ _, ?_, ?_⟩
    · rw [ht, htrim, List.append_assoc, List.cons_append, List.takeWhile_append_dropWhile]
    · intro d hd
      rcases List.mem_cons.mp hd with rfl | hd
      · exact trimStart_eq_cons htrim
      · simpa using List.all_eq_true.mp List.all_takeWhile d hd
    · intro d hd
      have hhead := List.head?_dropWhile_not (!isBlank ·) u
      rw [hd] at hhead
      simpa using hhead

/-- The first word of a text comes after its leading blanks, and ends with the text or before a blank. -/
theorem head?_words_eq_some_iff {t n : Text} : (words t).head? = some n ↔
    ∃ b r, t = b ++ n ++ r ∧ (∀ c ∈ b, isBlank c = true) ∧ n ≠ [] ∧ (∀ c ∈ n, isBlank c = false) ∧
      ∀ c, r.head? = some c → isBlank c = true := by
  have first {b w r : Text} (hb : ∀ c ∈ b, isBlank c = true) (hne : w ≠ []) (hw : ∀ c ∈ w, isBlank c = false)
      (hr : ∀ c, r.head? = some c → isBlank c = true) : (words (b ++ w ++ r)).head? = some w := by
    rw [List.append_assoc, words_blanks_append hb]
    cases r with
    | nil => rw [List.append_nil, words_of_forall_not hne hw, List.head?_cons]
    | cons c r => rw [words_append_blank (hr c rfl), words_of_forall_not hne hw]; rfl
  constructor
  · intro h
    rcases blank_or_first t with hblank | ⟨b, w, r, rfl, hb, hne, hw, hr⟩
    · rw [words_eq_nil hblank] at h
      cases h
    · rw [first hb hne hw hr] at h
      cases h
      exact ⟨b, r, rfl, hb, hne, hw, hr⟩
  · rintro ⟨b, r, rfl, hb, hne, hn, hr⟩
    exact first hb hne hn hr

end ObjectTables.Text
