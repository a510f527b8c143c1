import ObjectTables.Proofs.Header.Alias
import ObjectTables.Proofs.Header.Placeholder

/-! Completing a header. Where its include guard is closed, a completed header defines what it did before and
    each missing number (`mem_definedNumbers_complete`), and its published form says the same. Without that
    line nothing is added. -/

namespace ObjectTables.Header
open Text

/-! ### Completed headers -/

theorem of_mem_missing {n full trimmed : Text} (h : n ∈ (complete full trimmed).missing) :
    (∃ s, n = numberMark ++ s) ∧ ∀ c ∈ n, isBlank c = false :=
  of_mem_definedNumbers (mem_missingNumbers.mp h).1

theorem complete_cut {full pre post : Text} (h : GuardCut pre post) :
    (complete full (pre ++ post)).text = pre ++ placeholders (complete full (pre ++ post)).missing ++ post :=
  insert_cut h _

/-- The placeholders are defined between what is defined before the guard is closed and what is after. -/
theorem definedNumbers_complete_cut {full pre post : Text} (h : GuardCut pre post) :
    definedNumbers (complete full (pre ++ post)).text =
      definedNumbers pre ++ (complete full (pre ++ post)).missing ++ definedNumbers post := by
  rw [complete_cut h, definedNumbers_append (h.ended.append (ended_placeholders _)), definedNumbers_append h.ended,
    definedNumbers_placeholders fun _ => of_mem_missing]

theorem complete_of_not_guarded {full trimmed : Text} (h : ¬Guarded trimmed) :
    (complete full trimmed).text = trimmed :=
  insert_of_not_guarded h _

/-- A completed header defines what it did before and what was missing. -/
theorem mem_definedNumbers_complete {n full trimmed : Text} (h : Guarded trimmed) :
    n ∈ definedNumbers (complete full trimmed).text ↔
      n ∈ definedNumbers trimmed ∨ n ∈ (complete full trimmed).missing := by
  obtain ⟨pre, post, rfl, hcut⟩ := h.exists_cut
  rw [definedNumbers_complete_cut hcut, definedNumbers_append hcut.ended]
  simp only [List.mem_append]
  exact ⟨fun h => h.elim (fun h => h.imp_left Or.inl) fun h => Or.inl (Or.inr h),
    fun h => h.elim (fun h => h.imp_left Or.inl) fun h => Or.inl (Or.inr h)⟩

theorem mem_complete_of_full {n full trimmed : Text} (h : Guarded trimmed) (hn : n ∈ definedNumbers full)
    (hundefined : n ≠ undefinedNumber) : n ∈ definedNumbers (complete full trimmed).text := by
  rw [mem_definedNumbers_complete h]
  by_cases htrimmed : n ∈ definedNumbers trimmed
  · exact Or.inl htrimmed
  · exact Or.inr (mem_missingNumbers.mpr ⟨hn, hundefined, htrimmed⟩)

/-- Nothing that a header defines is missing from it, nor from its published form. -/
theorem missingNumbers_eq_nil_iff {full trimmed : Text} : missingNumbers full trimmed = [] ↔
    ∀ n ∈ definedNumbers full, n ≠ undefinedNumber → n ∈ definedNumbers trimmed := by
  rw [List.eq_nil_iff_forall_not_mem]
  simp only [mem_missingNumbers, not_and, Decidable.not_not]

@[simp] theorem missingNumbers_published (full trimmed : Text) :
    missingNumbers full (published trimmed) = missingNumbers full trimmed := by
  rw [missingNumbers, missingNumbers, definedNumbers_published]

theorem published_complete_cut {full pre post : Text} (h : GuardCut pre post) :
    published (complete full (pre ++ post)).text =
      published pre ++ (complete full (pre ++ post)).missing.flatMap publishedPlaceholder ++ published post := by
  rw [complete_cut h, published_append (h.ended.append (ended_placeholders _)), published_append h.ended,
    published_placeholders fun n hn => (of_mem_missing hn).2]

/-- A published header that closes its include guard is the published form of what stands before that line,
    the placeholders, and the published form of the rest; it defines every number of the full header. Without
    such a line nothing is added. So nothing is missing afterwards exactly if the guard is closed or nothing
    was missing before. -/
theorem published_complete (full trimmed : Text) :
    (Guarded trimmed → ∃ pre post, trimmed = pre ++ post ∧ GuardCut pre post ∧
      published (complete full trimmed).text =
        published pre ++ (complete full trimmed).missing.flatMap publishedPlaceholder ++ published post ∧
      ∀ n ∈ definedNumbers full, n ≠ undefinedNumber →
        n ∈ definedNumbers (published (complete full trimmed).text)) ∧
    (¬Guarded trimmed → published (complete full trimmed).text = published trimmed) ∧
    (missingNumbers full (published (complete full trimmed).text) = [] ↔
      Guarded trimmed ∨ (complete full trimmed).missing = []) := by
  refine ⟨fun h => ?_, fun h => by rw [complete_of_not_guarded h], ?_⟩
  · obtain ⟨pre, post, rfl, hcut⟩ := h.exists_cut
    refine ⟨pre, post, rfl, hcut, published_complete_cut hcut, fun n hn hundefined => ?_⟩
    rw [definedNumbers_published]
    exact mem_complete_of_full h hn hundefined
  · rw [missingNumbers_published]
    by_cases h : Guarded trimmed
    · exact iff_of_true (missingNumbers_eq_nil_iff.mpr fun n => mem_complete_of_full h) (Or.inl h)
    · rw [complete_of_not_guarded h]
      exact ⟨Or.inr, fun hor => hor.resolve_left h⟩

end ObjectTables.Header
