import ObjectTables.Proofs.Header.Definition

/-! The grammar of a definition. A line defines a number macro if it consists of the mark, the keyword, a blank and a
    name with the mark of the numbers, with blanks between them wherever they do not change what the words are
    (`DefinesNumber`). The scanner reads off the name of such a line and of no other (`definedNumber?_eq_some_iff`), so
    the numbers of a header are the names on its lines (`Lists`). -/

namespace ObjectTables.Header
open Text

/-! ### Definitions -/

/-- A line that defines a number macro: the mark and the keyword, a space, tab, form feed or carriage return, and the
    name, which the line ends or a blank. Blanks may stand before the mark, between it and the keyword, and before the
    name. -/
inductive DefinesNumber : Text → Text → Prop where
  | intro {w₁ w₂ w₃ n r : Text} {a : Char} :
      (∀ c ∈ w₁, isBlank c = true) → (∀ c ∈ w₂, isBlank c = true) → (∀ c ∈ w₃, isBlank c = true) →
      a ∈ [' ', '\t', '\x0c', '\r'] → numberMark <+: n → (∀ c ∈ n, isBlank c = false) →
      (∀ c, r.head? = some c → isBlank c = true) →
      DefinesNumber (w₁ ++ '#' :: (w₂ ++ "define".toList ++ a :: (w₃ ++ n ++ r))) n

/-- What some lines define: of each line in order, the number that it defines if there is one. -/
inductive Lists : List Text → List Text → Prop where
  | nil : Lists [] []
  | defines {line n : Text} {ls ns : List Text} : DefinesNumber line n → Lists ls ns → Lists (line :: ls) (n :: ns)
  | other {line : Text} {ls ns : List Text} : (∀ n, ¬DefinesNumber line n) → Lists ls ns → Lists (line :: ls) ns

theorem after?_trimStart_eq_some_iff {m : Char} (hm : isBlank m = false) {mark t rest : Text} :
    after? (m :: mark) (trimStart t) = some rest ↔
      ∃ b, t = b ++ m :: (mark ++ rest) ∧ ∀ c ∈ b, isBlank c = true := by
  rw [after?_eq_some_iff]
  constructor
  · intro h
    obtain ⟨b, ht, hb⟩ := exists_append_trimStart t
    exact ⟨b, by rw [ht, h, List.cons_append], hb⟩
  · rintro ⟨b, rfl, hb⟩
    rw [trimStart_blanks_append hb, trimStart_cons hm, List.cons_append]

theorem definedMacro?_eq_some_iff {line n : Text} : definedMacro? line = some n ↔
    ∃ w₁ w₂ a u, line = w₁ ++ '#' :: (w₂ ++ "define".toList ++ a :: u) ∧ (∀ c ∈ w₁, isBlank c = true) ∧
      (∀ c ∈ w₂, isBlank c = true) ∧ isDirectiveBlank a = true ∧ (words u).head? = some n := by
  have hkeyword : "define".toList = 'd' :: "efine".toList := by decide
  unfold definedMacro?
  simp only [Option.bind_eq_bind, Option.bind_eq_some_iff, hkeyword]
  constructor
  · rintro ⟨directive, hmark, rest, hdefine, hname⟩
    obtain ⟨w₁, rfl, hw₁⟩ := (after?_trimStart_eq_some_iff (by decide)).mp hmark
    obtain ⟨w₂, rfl, hw₂⟩ := (after?_trimStart_eq_some_iff (by decide)).mp hdefine
    cases rest with
    | nil => cases hname
    | cons a u =>
      split at hname
      · next ha =>
        have ha' : isDirectiveBlank a = true := ha
        rw [words_cons_blank (isBlank_of_isDirectiveBlank ha')] at hname
        exact ⟨w₁, w₂, a, u, by simp, hw₁, hw₂, ha', hname⟩
      · cases hname
  · rintro ⟨w₁, w₂, a, u, rfl, hw₁, hw₂, ha, hname⟩
    refine ⟨_, (after?_trimStart_eq_some_iff (by decide)).mpr ⟨w₁, rfl, hw₁⟩, a :: u,
      (after?_trimStart_eq_some_iff (by decide)).mpr ⟨w₂, by simp, hw₂⟩, ?_⟩
    rw [if_pos (by simpa using ha), words_cons_blank (isBlank_of_isDirectiveBlank ha), hname]

theorem mem_separators_iff {a : Char} :
    a ∈ [' ', '\t', '\x0c', '\r'] ↔ isDirectiveBlank a = true ∧ a ≠ '\n' := by
  simp only [isDirectiveBlank, List.mem_cons, List.not_mem_nil, or_false, Bool.or_eq_true, beq_iff_eq]
  constructor
  · rintro (rfl | rfl | rfl | rfl) <;> simp
  · rintro ⟨(((rfl | rfl) | rfl) | rfl) | rfl, hne⟩ <;> simp_all

theorem DefinesNumber.definedNumber? {line n : Text} (h : DefinesNumber line n) : definedNumber? line = some n := by
  obtain @⟨w₁, w₂, w₃, n, r, a, hw₁, hw₂, hw₃, ha, hmark, hn, hr⟩ := h
  have hne : n ≠ [] := by
    rintro rfl
    exact absurd (List.prefix_nil.mp hmark) (by decide)
  refine Option.filter_eq_some_iff.mpr ⟨definedMacro?_eq_some_iff.mpr ?_, List.isPrefixOf_iff_prefix.mpr hmark⟩
  exact ⟨w₁, w₂, a, _, rfl, hw₁, hw₂, (mem_separators_iff.mp ha).1,
    head?_words_eq_some_iff.mpr ⟨w₃, r, rfl, hw₃, hne, hn, hr⟩⟩

theorem definedNumber?_eq_some_iff {line n : Text} (hline : '\n' ∉ line) :
    definedNumber? line = some n ↔ DefinesNumber line n := by
  constructor
  · intro h
    obtain ⟨hmac, hmark⟩ := Option.filter_eq_some_iff.mp h
    obtain ⟨w₁, w₂, a, u, rfl, hw₁, hw₂, ha, hname⟩ := definedMacro?_eq_some_iff.mp hmac
    obtain ⟨w₃, r, rfl, hw₃, -, hn, hr⟩ := head?_words_eq_some_iff.mp hname
    have hne : a ≠ '\n' := by
      rintro rfl
      simp at hline
    exact DefinesNumber.intro hw₁ hw₂ hw₃ (mem_separators_iff.mpr ⟨ha, hne⟩)
      (List.isPrefixOf_iff_prefix.mp hmark) hn hr
  · exact DefinesNumber.definedNumber?

theorem lists_iff {ls ns : List Text} (hls : ∀ line ∈ ls, '\n' ∉ line) :
    Lists ls ns ↔ ns = ls.filterMap definedNumber? := by
  constructor
  · intro h
    induction h with
    | nil => rfl
    | defines hdef _ ih =>
      rw [List.filterMap_cons_some hdef.definedNumber?, ih (List.forall_mem_cons.mp hls).2]
    | other hnone _ ih =>
      obtain ⟨hline, hmore⟩ := List.forall_mem_cons.mp hls
      rw [List.filterMap_cons_none, ih hmore]
      exact Option.eq_none_iff_forall_ne_some.mpr fun n hn => hnone n ((definedNumber?_eq_some_iff hline).mp hn)
  · rintro rfl
    induction ls with
    | nil => exact Lists.nil
    | cons line ls ih =>
      obtain ⟨hline, hmore⟩ := List.forall_mem_cons.mp hls
      cases hdef : definedNumber? line with
      | some n =>
        rw [List.filterMap_cons_some hdef]
        exact Lists.defines ((definedNumber?_eq_some_iff hline).mp hdef) (ih hmore)
      | none =>
        rw [List.filterMap_cons_none hdef]
        refine Lists.other (fun n hn => ?_) (ih hmore)
        rw [hn.definedNumber?] at hdef
        cases hdef

/-- The numbers that a header defines are what its lines define by the grammar, in their order. By the grammar a line
    defines one number at most. A text of whole lines with another text after it defines what the two define. -/
theorem numbers_by_grammar (t : Text) :
    (∀ ns, ns = definedNumbers t ↔ ∃ ls, HasLines t ls ∧ Lists ls ns) ∧
    (∀ line m n, DefinesNumber line m → DefinesNumber line n → m = n) ∧
    ∀ a b, t = a ++ b → a = [] ∨ a.getLast? = some '\n' →
      definedNumbers t = definedNumbers a ++ definedNumbers b := by
  refine ⟨?_, ?_, ?_⟩
  · intro ns
    have hlists : Lists (lines t) ns ↔ ns = (lines t).filterMap definedNumber? :=
      lists_iff fun _ => newline_not_mem_of_mem_lines
    rw [definedNumbers, ← hlists]
    simp [hasLines_iff]
  · intro line m n hm hn
    exact Option.some.inj (hm.definedNumber?.symm.trans hn.definedNumber?)
  · rintro a b rfl h
    exact definedNumbers_append h b

/-- Blanks of other kinds may stand before the keyword and before the name, but not right after the keyword, and a longer
    word is no keyword. -/
theorem numbers_by_grammar_after_blanks :
    let line := "\t#\u00a0define\r\u2003NID_A\u000bNID_B".toList
    let a := line ++ "\r\n#defined NID_C 1\n#define\u000bNID_D 1\n#define\u00a0NID_E\r\n".toList
    let b := "# define SN_F\n#define\n\u2028#define\x0cNID_G\r".toList
    DefinesNumber line "NID_A".toList ∧ (∀ n, DefinesNumber line n → n = "NID_A".toList) ∧
      a.getLast? = some '\n' ∧ definedNumbers (a ++ b) = definedNumbers a ++ definedNumbers b ∧
      definedNumbers a = ["NID_A".toList] ∧ definedNumbers b = ["NID_G".toList] := by
  intro line a b
  have hdef : DefinesNumber line "NID_A".toList := (definedNumber?_eq_some_iff (by decide)).mp (by decide +kernel)
  have hlast : a.getLast? = some '\n' := by decide
  obtain ⟨-, hone, hparts⟩ := numbers_by_grammar (a ++ b)
  exact ⟨hdef, fun n hn => hone line n _ hn hdef, hlast, hparts a b rfl (Or.inr hlast), by decide +kernel,
    by decide +kernel⟩

end ObjectTables.Header
