import Mathlib.Data.List.Infix
import Mathlib.Data.Nat.Find
import ObjectTables.Proofs.Header.Placeholder

/-! The position of a block. The mark that closes an include guard holds no line feed, so the first line that contains
    it is the line in which it occurs first in the whole text. A block is therefore inserted at the start of the line of
    the first occurrence (`guardCut_of_first`), which a search through the text and a search back from what it finds
    determine without reading line by line. -/

namespace ObjectTables

namespace Text
variable {mark t : Text} {p q : Nat}

/-! ### Positions -/

/-- A mark occurs in a text at position `p`, and at none before it. -/
structure FirstAt (mark t : Text) (p : Nat) : Prop where
  here : mark <+: t.drop p
  before : ∀ i < p, ¬mark <+: t.drop i

/-- Position `q` follows the last line feed before position `p`, or is the start of the text if there is none. -/
structure LineStart (t : Text) (p q : Nat) : Prop where
  le : q ≤ p
  start : q = 0 ∨ ∃ r, q = r + 1 ∧ t[r]? = some '\n'
  line : ∀ i, q ≤ i → i < p → t[i]? ≠ some '\n'

theorem infix_iff_drop : mark <:+: t ↔ ∃ i, mark <+: t.drop i := by
  constructor
  · rintro ⟨a, b, rfl⟩
    exact ⟨a.length, b, by simp⟩
  · rintro ⟨i, h⟩
    exact h.isInfix.trans (List.drop_suffix i t).isInfix

theorem exists_firstAt (h : mark <:+: t) : ∃ p, FirstAt mark t p := by
  have hex := infix_iff_drop.mp h
  exact ⟨Nat.find hex, Nat.find_spec hex, fun i hi => Nat.find_min hex hi⟩

theorem FirstAt.unique {p' : Nat} (h : FirstAt mark t p) (h' : FirstAt mark t p') : p = p' := by
  rcases Nat.lt_trichotomy p p' with hlt | heq | hlt
  · exact absurd h.here (h'.before p hlt)
  · exact heq
  · exact absurd h'.here (h.before p' hlt)

theorem exists_lineStart (t : Text) (p : Nat) : ∃ q, LineStart t p q := by
  induction p with
  | zero => exact ⟨0, Nat.le_refl 0, Or.inl rfl, by simp⟩
  | succ p ih =>
    by_cases hp : t[p]? = some '\n'
    · exact ⟨p + 1, Nat.le_refl _, Or.inr ⟨p, rfl, hp⟩, by omega⟩
    · obtain ⟨q, hle, hstart, hline⟩ := ih
      refine ⟨q, Nat.le_succ_of_le hle, hstart, fun i hq hi => ?_⟩
      rcases Nat.lt_succ_iff_lt_or_eq.mp hi with hlt | rfl
      · exact hline i hq hlt
      · exact hp

theorem LineStart.not_lt {q' : Nat} (h : LineStart t p q) (h' : LineStart t p q') : ¬q < q' := by
  intro hlt
  rcases h'.start with rfl | ⟨r, rfl, hr⟩
  · omega
  · exact h.line r (by omega) (by have := h'.le; omega) hr

theorem LineStart.unique {q' : Nat} (h : LineStart t p q) (h' : LineStart t p q') : q = q' :=
  Nat.le_antisymm (Nat.not_lt.mp (h'.not_lt h)) (Nat.not_lt.mp (h.not_lt h'))

theorem LineStart.ended (h : LineStart t p q) : Ended (t.take q) := by
  rcases h.start with rfl | ⟨r, rfl, hr⟩
  · exact Or.inl (List.take_zero)
  · exact Or.inr (by rw [List.getLast?_take]; simp [hr])

/-- Between the start of its line and a position there is no line feed. -/
theorem LineStart.exists_line (h : LineStart t p q) : ∃ x, '\n' ∉ x ∧ t.drop q = x ++ t.drop p := by
  refine ⟨(t.drop q).take (p - q), fun hmem => ?_, ?_⟩
  · obtain ⟨i, hi, heq⟩ := List.mem_take_iff_getElem.mp hmem
    refine h.line (q + i) (Nat.le_add_right q i) (by omega) ?_
    rw [List.getElem_drop] at heq
    rw [List.getElem?_eq_some_iff]
    exact ⟨_, heq⟩
  · calc t.drop q = (t.drop q).take (p - q) ++ (t.drop q).drop (p - q) := (List.take_append_drop _ _).symm
      _ = (t.drop q).take (p - q) ++ t.drop p := by rw [List.drop_drop, Nat.add_sub_cancel' h.le]

/-- What stands first in a text and holds no line feed belongs to the first line. -/
theorem exists_rawLines_append {x : Text} (hx : '\n' ∉ x) (hne : x ++ t ≠ []) :
    ∃ y more, rawLines (x ++ t) = (x ++ y) :: more := by
  induction x with
  | nil => exact exists_rawLines_cons hne
  | cons c x ih =>
    simp only [List.mem_cons, not_or] at hx
    have hc : c ≠ '\n' := fun h => hx.1 h.symm
    by_cases hrest : x ++ t = []
    · obtain ⟨rfl, rfl⟩ := List.append_eq_nil_iff.mp hrest
      exact ⟨[], [], rawLines_singleton hc⟩
    · obtain ⟨y, more, hlines⟩ := ih hx.2 hrest
      exact ⟨y, more, rawLines_cons hc hlines⟩

end Text

namespace Header
open Text
variable {t : Text} {p q : Nat}

/-! ### The place of a block -/

theorem length_guardClose_pos : 0 < guardClose.length := by decide +kernel

theorem newline_not_mem_guardClose : '\n' ∉ guardClose := by decide +kernel

theorem infix_of_guarded (h : Guarded t) : guardClose <:+: t := by
  obtain ⟨line, hline, hcloses⟩ := h
  have hline' : line <:+: (rawLines t).flatten := List.infix_of_mem_flatten hline
  rw [flatten_rawLines] at hline'
  exact (contains_iff.mp hcloses).trans hline'

theorem guardCut_of_first (h : FirstAt guardClose t p) (hq : LineStart t p q) :
    GuardCut (t.take q) (t.drop q) where
  ended := hq.ended
  before := by
    -- an occurrence before the line would come before the first one
    intro hguarded
    obtain ⟨i, hi⟩ := infix_iff_drop.mp (infix_of_guarded hguarded)
    have hlength := hi.length_le
    have hpos := length_guardClose_pos
    have hlt : i < p := by
      have := hq.le
      simp only [List.length_drop, List.length_take] at hlength
      omega
    have htake : t.take q <+: t := List.take_prefix q t
    exact h.before i hlt (hi.trans (htake.drop i))
  first := by
    obtain ⟨x, hx, hline⟩ := hq.exists_line
    obtain ⟨rest, hrest⟩ := h.here
    have hmark : '\n' ∉ x ++ guardClose := by
      rw [List.mem_append, not_or]
      exact ⟨hx, newline_not_mem_guardClose⟩
    have hcut : t.drop q = x ++ guardClose ++ rest := by rw [hline, ← hrest, List.append_assoc]
    have hne : x ++ guardClose ++ rest ≠ [] := by simp [List.ne_nil_of_length_pos length_guardClose_pos]
    obtain ⟨y, more, hlines⟩ := exists_rawLines_append hmark hne
    refine ⟨x ++ guardClose ++ y, more, by rw [hcut, hlines], ?_⟩
    exact contains_iff.mpr ⟨x, y, rfl⟩

/-- A block that is not empty is inserted into a text in which the mark of a closed include guard occurs, and into no
    other. It comes before the line in which the mark occurs first, found by two searches of which each has one answer:
    for the first occurrence in the whole text, and from there back for the last line feed. Without the block, the
    text is again what it was. -/
theorem insert_at_first_mark (t block : Text) :
    (block = [] ∨ ¬guardClose <:+: t → insert t block = t) ∧
    (guardClose <:+: t → ∃! p, FirstAt guardClose t p) ∧
    (∀ p, ∃! q, LineStart t p q) ∧
    ∀ p q, FirstAt guardClose t p → LineStart t p q →
      insert t block = t.take q ++ block ++ t.drop q ∧
      (insert t block).take q ++ (insert t block).drop (q + block.length) = t := by
  refine ⟨?_, ?_, ?_, ?_⟩
  · rintro (rfl | h)
    · exact insert_nil t
    · exact insert_of_not_guarded (mt infix_of_guarded h) block
  · intro h
    obtain ⟨p, hp⟩ := exists_firstAt h
    exact ⟨p, hp, fun _ hp' => hp'.unique hp⟩
  · intro p
    obtain ⟨q, hq⟩ := exists_lineStart t p
    exact ⟨q, hq, fun _ hq' => hq'.unique hq⟩
  · intro p q hp hq
    have hinsert := insert_cut (guardCut_of_first hp hq) block
    rw [List.take_append_drop] at hinsert
    have hle : q ≤ t.length := by
      have hlength := hp.here.length_le
      have hpos := length_guardClose_pos
      have := hq.le
      rw [List.length_drop] at hlength
      omega
    have hpre : (t.take q).length = q := List.length_take_of_le hle
    have hblock : (t.take q ++ block).length = q + block.length := by rw [List.length_append, hpre]
    refine ⟨hinsert, ?_⟩
    rw [hinsert, List.drop_left' hblock, List.append_assoc, List.take_left' hpre, List.take_append_drop]

/-- The mark occurs twice in the last line, once more in the block, and overlaps its own beginning. -/
theorem insert_at_first_mark_overlapping :
    let t := "é\n##endif /* OPENSSL_OBJ_MAC_H */#endif /* OPENSSL_OBJ_MAC_H */".toList
    let block := "#endif /* OPENSSL_OBJ_MAC_H */\n".toList
    FirstAt guardClose t 3 ∧ LineStart t 3 2 ∧ insert t block = ['é', '\n'] ++ block ++ t.drop 2 := by
  intro t block
  have hfirst : FirstAt guardClose t 3 := ⟨by decide +kernel, by decide +kernel⟩
  have hline : ∀ i < 3, 2 ≤ i → t[i]? ≠ some '\n' := by decide +kernel
  have hstart : LineStart t 3 2 := ⟨by decide, Or.inr ⟨1, rfl, rfl⟩, fun i hi hp => hline i hp hi⟩
  exact ⟨hfirst, hstart, ((insert_at_first_mark t block).2.2.2 3 2 hfirst hstart).1⟩

end Header

end ObjectTables
