import ObjectTables.Header.Placeholder
import ObjectTables.Proofs.Header.Definition

/-! Where the placeholders go and what they define. A header that closes its include guard is cut before the
    first line that does (`Guarded.exists_cut`); a block stands in that cut (`insert_cut`) and nowhere else
    (`insert_of_not_guarded`). Placeholders define the numbers that they are made for, in their order
    (`definedNumbers_placeholders`). -/

namespace ObjectTables.Header
open Text

/-! ### The guard -/

/-- A line of the header closes its include guard. -/
def Guarded (t : Text) : Prop := ∃ line ∈ rawLines t, contains guardClose line = true

instance (t : Text) : Decidable (Guarded t) := inferInstanceAs (Decidable (∃ line ∈ rawLines t, _))

/-- The text `pre ++ post` is cut between two lines, before the first one that closes the include guard. -/
structure GuardCut (pre post : Text) : Prop where
  ended : Ended pre
  before : ¬Guarded pre
  first : ∃ line more, rawLines post = line :: more ∧ contains guardClose line = true

theorem insertAtGuard?_eq_some {block : Text} {a more : List Text} {line : Text}
    (ha : ∀ l ∈ a, contains guardClose l = false) (hline : contains guardClose line = true) :
    insertAtGuard? block (a ++ line :: more) = some (a.flatten ++ block ++ line ++ more.flatten) := by
  induction a with
  | nil => simp [insertAtGuard?, hline]
  | cons l a ih =>
    rw [List.cons_append, insertAtGuard?, if_neg (by simp [ha l List.mem_cons_self]),
      ih fun m hm => ha m (List.mem_cons_of_mem _ hm)]
    simp

theorem insertAtGuard?_eq_none {block : Text} {a : List Text} (ha : ∀ l ∈ a, contains guardClose l = false) :
    insertAtGuard? block a = none := by
  induction a with
  | nil => rfl
  | cons l a ih =>
    rw [insertAtGuard?, if_neg (by simp [ha l List.mem_cons_self]), ih fun m hm => ha m (List.mem_cons_of_mem _ hm),
      Option.map_none]

theorem not_guarded_iff {t : Text} : ¬Guarded t ↔ ∀ l ∈ rawLines t, contains guardClose l = false := by
  simp [Guarded]

theorem guarded_append_iff {a : Text} (h : Ended a) (b : Text) : Guarded (a ++ b) ↔ Guarded a ∨ Guarded b := by
  simp only [Guarded, rawLines_append h, List.mem_append, or_and_right, exists_or]

/-- A text that closes its include guard is cut before the first line that does. -/
theorem Guarded.exists_cut {t : Text} (h : Guarded t) : ∃ pre post, t = pre ++ post ∧ GuardCut pre post := by
  obtain ⟨a, line, more, hl, hline, ha⟩ : ∃ a line more, rawLines t = a ++ line :: more ∧
      contains guardClose line = true ∧ ∀ l ∈ a, contains guardClose l = false := by
    obtain ⟨line, hmem, hline⟩ := h
    generalize rawLines t = ls at hmem
    induction ls with
    | nil => cases hmem
    | cons m ls ih =>
      cases hm : contains guardClose m with
      | true => exact ⟨[], m, ls, rfl, hm, by simp⟩
      | false =>
        rcases List.mem_cons.mp hmem with rfl | hmem
        · rw [hline] at hm
          cases hm
        · obtain ⟨a, line, more, rfl, h1, h2⟩ := ih hmem
          exact ⟨m :: a, line, more, rfl, h1, by simpa [hm] using h2⟩
  obtain ⟨hpre, hpost, hend⟩ := rawLines_cut hl
  refine ⟨a.flatten, (line :: more).flatten, ?_, ⟨?_, ?_, line, more, hpost, hline⟩⟩
  · rw [← List.flatten_append, ← hl, flatten_rawLines]
  · exact hend.resolve_left (by simp)
  · rw [not_guarded_iff, hpre]
    exact ha

/-- A block is inserted where the text is cut. -/
theorem insert_cut {pre post : Text} (h : GuardCut pre post) (block : Text) :
    insert (pre ++ post) block = pre ++ block ++ post := by
  obtain ⟨line, more, hpost, hline⟩ := h.first
  unfold insert insert?
  split
  · next hnil => simp [List.isEmpty_iff.mp hnil]
  · rw [rawLines_append h.ended, hpost, insertAtGuard?_eq_some (not_guarded_iff.mp h.before) hline, Option.getD_some,
      flatten_rawLines, ← flatten_rawLines post, hpost, List.flatten_cons, List.append_assoc (pre ++ block)]

theorem insert_of_not_guarded {t : Text} (h : ¬Guarded t) (block : Text) : insert t block = t := by
  unfold insert insert?
  split
  · rfl
  · rw [insertAtGuard?_eq_none (not_guarded_iff.mp h)]
    rfl

/-! ### Placeholders -/

/-- A placeholder line in a published header. -/
def publishedPlaceholderLine (name value : Text) : Text :=
  "#define ".toList ++ name ++ placeholderGap ++ value ++ lineEnd

/-- The placeholders of one number macro in a published header. -/
def publishedPlaceholder (name : Text) : Text :=
  publishedPlaceholderLine name undefinedNumber ++ publishedPlaceholderLine (shortName name) undefinedShortName

theorem mem_shortName {c : Char} {name : Text} (h : c ∈ shortName name) : c ∈ name ∨ c ∈ shortNameMark := by
  unfold shortName at h
  split at h
  · next base hbase =>
    rcases List.mem_append.mp h with h | h
    · exact Or.inr h
    · exact Or.inl (after?_eq_some_iff.mp hbase ▸ List.mem_append_right _ h)
  · exact Or.inl h

/-- What stands before the value of a placeholder holds spaces, but neither a tab nor a line feed. -/
theorem placeholderLine_eq {name : Text} (hname : ∀ c ∈ name, isBlank c = false) (value : Text) :
    ∃ x, '\n' ∉ x ∧ '\t' ∉ x ∧ placeholderLine name value = x ++ value ++ ['\n'] ∧
      publishedPlaceholderLine name value = x ++ value ++ lineEnd := by
  have absent : ∀ d, isBlank d = true → d ∉ "#define ".toList → d ∉ placeholderGap →
      d ∉ "#define ".toList ++ name ++ placeholderGap := fun d hd hstart hgap => by
    rw [List.mem_append, List.mem_append, not_or, not_or]
    exact ⟨⟨hstart, fun hmem => by rw [hname d hmem] at hd; cases hd⟩, hgap⟩
  exact ⟨_, absent '\n' (by decide) (by decide) (by decide), absent '\t' (by decide) (by decide) (by decide), rfl, rfl⟩

theorem published_placeholderLine {name value : Text} (hname : ∀ c ∈ name, isBlank c = false)
    (hne : value ≠ []) (hvalue : ∀ c ∈ value, isBlank c = false) :
    published (placeholderLine name value) = publishedPlaceholderLine name value := by
  obtain ⟨x, hn, ht, hline, hpub⟩ := placeholderLine_eq hname value
  rw [hline, hpub, published_line hn ht hne hvalue]

theorem ended_placeholderLine (name value : Text) : Ended (placeholderLine name value) :=
  ended_append_newline _

theorem ended_placeholder (name : Text) : Ended (placeholder name) :=
  (ended_placeholderLine _ _).append (ended_placeholderLine _ _)

theorem ended_placeholders (names : List Text) : Ended (placeholders names) := by
  induction names with
  | nil => exact Or.inl rfl
  | cons name names ih => exact (ended_placeholder name).append ih

theorem shortNameMark_not_isBlank : ∀ c ∈ shortNameMark, isBlank c = false :=
  not_isBlank_of_all (by decide)

theorem shortName_not_isBlank {name : Text} (h : ∀ c ∈ name, isBlank c = false) :
    ∀ c ∈ shortName name, isBlank c = false :=
  fun c hc => (mem_shortName hc).elim (h c) (shortNameMark_not_isBlank c)

theorem shortName_number (base : Text) : shortName (numberMark ++ base) = shortNameMark ++ base := by
  rw [shortName, after?_eq_some_iff.mpr rfl]

theorem published_placeholder {name : Text} (h : ∀ c ∈ name, isBlank c = false) :
    published (placeholder name) = publishedPlaceholder name := by
  have hshort := shortName_not_isBlank h
  have hnumber : published (placeholderLine name undefinedNumber) = _ :=
    published_placeholderLine h (by decide) (not_isBlank_of_all (by decide))
  have hshortName : published (placeholderLine (shortName name) undefinedShortName) = _ :=
    published_placeholderLine hshort (by decide) (not_isBlank_of_all (by decide))
  rw [placeholder, published_append (ended_placeholderLine _ _), hnumber, hshortName]
  rfl

theorem published_placeholders {names : List Text} (h : ∀ name ∈ names, ∀ c ∈ name, isBlank c = false) :
    published (placeholders names) = names.flatMap publishedPlaceholder := by
  induction names with
  | nil => rfl
  | cons name names ih =>
    rw [placeholders, List.flatMap_cons, published_append (ended_placeholder name),
      published_placeholder (h name List.mem_cons_self), ← placeholders,
      ih fun m hm => h m (List.mem_cons_of_mem _ hm), List.flatMap_cons]

theorem definedMacro?_placeholderLine {name : Text} (hne : name ≠ []) (h : ∀ c ∈ name, isBlank c = false)
    (value : Text) : definedMacro? (placeholderLine name value) = some name := by
  have hwords : words (' ' :: (name ++ placeholderGap ++ value ++ ['\n'])) =
      name :: words (List.replicate 15 ' ' ++ value ++ ['\n']) := by
    rw [words_cons_blank (by decide), placeholderGap, List.replicate_succ]
    simp only [List.append_assoc, List.cons_append]
    rw [words_append_blank (by decide), words_of_forall_not hne h, List.singleton_append]
  show (if (' ' :: (name ++ placeholderGap ++ value ++ ['\n'])).head?.any isDirectiveBlank
    then (words (' ' :: (name ++ placeholderGap ++ value ++ ['\n']))).head? else none) = some name
  rw [hwords]
  rfl

theorem definedNumbers_placeholderLine {name value : Text} (hname : ∀ c ∈ name, isBlank c = false)
    (hvalue : '\n' ∉ value) :
    definedNumbers (placeholderLine name value) = (definedNumber? (placeholderLine name value)).toList := by
  obtain ⟨x, hn, -, hline, -⟩ := placeholderLine_eq hname value
  rw [definedNumbers_eq, hline, rawLines_line (by simp [hn, hvalue]), List.filterMap_cons]
  cases definedNumber? (x ++ value ++ ['\n']) <;> rfl

/-- The placeholders of a number macro define it and no other number. -/
theorem definedNumbers_placeholder {base : Text} (h : ∀ c ∈ numberMark ++ base, isBlank c = false) :
    definedNumbers (placeholder (numberMark ++ base)) = [numberMark ++ base] := by
  have hblank : ∀ c ∈ shortNameMark ++ base, isBlank c = false := shortName_number base ▸ shortName_not_isBlank h
  have hnumber : definedNumber? (placeholderLine (numberMark ++ base) undefinedNumber) = some (numberMark ++ base) := by
    rw [definedNumber?, definedMacro?_placeholderLine (List.append_ne_nil_of_left_ne_nil (by decide) base) h,
      Option.filter_some, if_pos (List.isPrefixOf_iff_prefix.mpr (List.prefix_append _ _))]
  have hshortName : definedNumber? (placeholderLine (shortNameMark ++ base) undefinedShortName) = none := by
    rw [definedNumber?, definedMacro?_placeholderLine (List.append_ne_nil_of_left_ne_nil (by decide) base) hblank,
      Option.filter_some]
    rfl
  rw [placeholder, definedNumbers_append (ended_placeholderLine _ _), shortName_number,
    definedNumbers_placeholderLine h (by decide), definedNumbers_placeholderLine hblank (by decide), hnumber,
    hshortName]
  rfl

theorem definedNumbers_placeholders {names : List Text}
    (h : ∀ n ∈ names, (∃ s, n = numberMark ++ s) ∧ ∀ c ∈ n, isBlank c = false) :
    definedNumbers (placeholders names) = names := by
  induction names with
  | nil => rfl
  | cons n names ih =>
    obtain ⟨⟨s, rfl⟩, hblank⟩ := h n List.mem_cons_self
    rw [placeholders, List.flatMap_cons, definedNumbers_append (ended_placeholder _),
      definedNumbers_placeholder hblank, ← placeholders, ih fun m hm => h m (List.mem_cons_of_mem _ hm)]
    rfl

end ObjectTables.Header
