import Mathlib.Data.List.Basic
import ObjectTables.Proofs.Header.Definition

/-! The missing numbers as an ordered difference. Leaving members out of a list commutes with keeping the first
    occurrence of each (`firstOccurrences_filter`), so what is missing is a selection from the numbers of the full header,
    each at its first occurrence, and the trimmed header only decides which of them are selected (`missingNumbers_eq`). -/

namespace ObjectTables.Header
open Text

/-! ### First occurrences -/

section FirstOccurrences
variable {seen l : List Text} {m : Text}

theorem firstOccurrences_cons_of_mem (h : m ∈ seen) :
    firstOccurrences seen (m :: l) = firstOccurrences seen l := by
  simp [firstOccurrences, h]

theorem firstOccurrences_cons_of_not_mem (h : m ∉ seen) :
    firstOccurrences seen (m :: l) = m :: firstOccurrences (m :: seen) l := by
  simp [firstOccurrences, h]

theorem ne_of_mem_firstOccurrences {n : Text} (hm : m ∈ seen) (hn : n ∈ firstOccurrences seen l) : n ≠ m := by
  rintro rfl
  exact (mem_firstOccurrences.mp hn).2 hm

/-- Of the members seen before, only those count that occur. -/
theorem firstOccurrences_congr {seen' : List Text} (h : ∀ n ∈ l, n ∈ seen ↔ n ∈ seen') :
    firstOccurrences seen l = firstOccurrences seen' l := by
  induction l generalizing seen seen' with
  | nil => rfl
  | cons m l ih =>
    obtain ⟨hm, hl⟩ := List.forall_mem_cons.mp h
    by_cases hs : m ∈ seen
    · rw [firstOccurrences_cons_of_mem hs, firstOccurrences_cons_of_mem (hm.mp hs), ih hl]
    · rw [firstOccurrences_cons_of_not_mem hs, firstOccurrences_cons_of_not_mem (mt hm.mpr hs)]
      congr 1
      apply ih
      intro n hn
      simp only [List.mem_cons, hl n hn]

theorem firstOccurrences_filter (p : Text → Bool) (seen l : List Text) :
    firstOccurrences seen (l.filter p) = (firstOccurrences seen l).filter p := by
  induction l generalizing seen with
  | nil => rfl
  | cons m l ih =>
    by_cases hs : m ∈ seen
    · rw [firstOccurrences_cons_of_mem hs, ← ih, List.filter_cons]
      split
      · rw [firstOccurrences_cons_of_mem hs]
      · rfl
    · rw [firstOccurrences_cons_of_not_mem hs, List.filter_cons, List.filter_cons, ← ih]
      split
      · rw [firstOccurrences_cons_of_not_mem hs]
      · next hp =>
        -- `m` is left out by the selection too, so it does not matter that it counts as seen
        apply firstOccurrences_congr
        intro n hn
        have hne : n ≠ m := by
          rintro rfl
          exact hp (List.mem_filter.mp hn).2
        simp [hne]

theorem firstOccurrences_seen_cons (m : Text) (seen l : List Text) :
    firstOccurrences (m :: seen) l = (firstOccurrences seen l).filter (· ≠ m) := by
  have hseen : firstOccurrences seen (l.filter (· ≠ m)) = firstOccurrences (m :: seen) (l.filter (· ≠ m)) := by
    apply firstOccurrences_congr
    intro n hn
    simp [of_decide_eq_true (List.mem_filter.mp hn).2]
  rw [← firstOccurrences_filter, hseen, firstOccurrences_filter, List.filter_eq_self.mpr]
  intro n hn
  simpa using ne_of_mem_firstOccurrences List.mem_cons_self hn

/-- What follows in a list adds what does not occur before it. -/
theorem firstOccurrences_append (seen a b : List Text) : firstOccurrences seen (a ++ b) =
    firstOccurrences seen a ++ (firstOccurrences seen b).filter (· ∉ a) := by
  induction a generalizing seen with
  | nil => simp [firstOccurrences]
  | cons m a ih =>
    rw [List.cons_append]
    by_cases hs : m ∈ seen
    · rw [firstOccurrences_cons_of_mem hs, firstOccurrences_cons_of_mem hs, ih]
      congr 1
      apply List.filter_congr
      intro n hn
      simp [ne_of_mem_firstOccurrences hs hn]
    · rw [firstOccurrences_cons_of_not_mem hs, firstOccurrences_cons_of_not_mem hs, ih, List.cons_append,
        firstOccurrences_seen_cons m seen b, List.filter_filter]
      congr 2
      apply List.filter_congr
      intro n _
      simp [Bool.and_comm]

/-- The first occurrences come in the order in which they are found. -/
theorem pairwise_firstOccurrences (seen l : List Text) :
    (firstOccurrences seen l).Pairwise fun m n => l.idxOf m < l.idxOf n := by
  induction l generalizing seen with
  | nil => exact List.Pairwise.nil
  | cons m l ih =>
    have later : ∀ {seen' : List Text}, m ∈ seen' →
        (firstOccurrences seen' l).Pairwise fun n k => (m :: l).idxOf n < (m :: l).idxOf k := by
      intro seen' hm
      refine (ih seen').imp_of_mem fun {n k} hn hk hlt => ?_
      rw [List.idxOf_cons_ne l (ne_of_mem_firstOccurrences hm hn).symm,
        List.idxOf_cons_ne l (ne_of_mem_firstOccurrences hm hk).symm]
      exact Nat.succ_lt_succ hlt
    by_cases hs : m ∈ seen
    · rw [firstOccurrences_cons_of_mem hs]
      exact later hs
    · rw [firstOccurrences_cons_of_not_mem hs]
      refine List.pairwise_cons.mpr ⟨fun n hn => ?_, later List.mem_cons_self⟩
      rw [List.idxOf_cons_self, List.idxOf_cons_ne l (ne_of_mem_firstOccurrences List.mem_cons_self hn).symm]
      exact Nat.succ_pos _

end FirstOccurrences

/-! ### Missing numbers -/

theorem missingNumbers_eq (full trimmed : Text) : missingNumbers full trimmed =
    (firstOccurrences [] (definedNumbers full)).filter fun n =>
      n ≠ undefinedNumber ∧ n ∉ definedNumbers trimmed := by
  rw [missingNumbers, firstOccurrences_filter]
  apply List.filter_congr
  intro n _
  simp [bne, beq_eq_decide]

/-- What is defined in addition is missing no more, and nothing else changes. -/
theorem missingNumbers_of_defined {full trimmed trimmed' : Text} {more : List Text}
    (h : ∀ n, n ∈ definedNumbers trimmed' ↔ n ∈ definedNumbers trimmed ∨ n ∈ more) :
    missingNumbers full trimmed' = (missingNumbers full trimmed).filter (· ∉ more) := by
  rw [missingNumbers_eq, missingNumbers_eq, List.filter_filter]
  apply List.filter_congr
  intro n _
  simp [h, Bool.and_comm, Bool.and_left_comm]

theorem missingNumbers_sublist (full : Text) {trimmed trimmed' : Text}
    (h : ∀ n ∈ definedNumbers trimmed, n ∈ definedNumbers trimmed') :
    (missingNumbers full trimmed').Sublist (missingNumbers full trimmed) := by
  rw [missingNumbers_of_defined fun n => (or_iff_right_of_imp (h n)).symm]
  exact List.filter_sublist

theorem missingNumbers_append {a : Text} (h : Ended a) (b trimmed : Text) : missingNumbers (a ++ b) trimmed =
    missingNumbers a trimmed ++ (missingNumbers b trimmed).filter (· ∉ missingNumbers a trimmed) := by
  simp only [missingNumbers_eq, definedNumbers_append h, firstOccurrences_append, List.filter_append,
    List.filter_filter]
  congr 1
  apply List.filter_congr
  intro n _
  simp only [List.mem_filter, mem_firstOccurrences]
  by_cases ha : n ∈ definedNumbers a
  · by_cases htrimmed : n ∈ definedNumbers trimmed <;> simp [ha, htrimmed]
  · simp [ha]

/-- The missing numbers are those that the full header defines and the trimmed one does not, the undefined object's
    apart, each once and in the order in which the full header comes to define them. A header that defines the same lacks
    the same, and one that defines more lacks fewer of them. If the full header consists of two parts, what is missing
    of the first comes before whatever else is missing of the second. -/
theorem missing_in_order (full trimmed : Text) :
    let missing := missingNumbers full trimmed
    missing.Nodup ∧
    (∀ n, n ∈ missing ↔ n ∈ definedNumbers full ∧ n ≠ undefinedNumber ∧ n ∉ definedNumbers trimmed) ∧
    missing.Pairwise (fun m n => (definedNumbers full).idxOf m < (definedNumbers full).idxOf n) ∧
    (∀ trimmed', (∀ n, n ∈ definedNumbers trimmed' ↔ n ∈ definedNumbers trimmed) →
      missingNumbers full trimmed' = missing) ∧
    (∀ trimmed', (∀ n ∈ definedNumbers trimmed, n ∈ definedNumbers trimmed') →
      (missingNumbers full trimmed').Sublist missing) ∧
    (∀ a b, full = a ++ b → a = [] ∨ a.getLast? = some '\n' →
      missing = missingNumbers a trimmed ++ (missingNumbers b trimmed).filter (· ∉ missingNumbers a trimmed)) := by
  intro missing
  refine ⟨nodup_missingNumbers full trimmed, fun n => mem_missingNumbers, ?_, ?_, ?_, ?_⟩
  · have hmissing : missing = _ := missingNumbers_eq full trimmed
    rw [hmissing]
    exact (pairwise_firstOccurrences [] (definedNumbers full)).filter _
  · intro trimmed' h
    have hnone : ∀ n, n ∈ definedNumbers trimmed' ↔ n ∈ definedNumbers trimmed ∨ n ∈ [] := by simpa using h
    rw [missingNumbers_of_defined hnone]
    simp [missing]
  · exact fun trimmed' => missingNumbers_sublist full
  · rintro a b rfl ha
    exact missingNumbers_append ha b trimmed

/-- The second part defines a number of the first again, and its own number twice. -/
theorem missing_in_order_of_two_parts :
    let a := "#define NID_B 2\n#define NID_A 1\n".toList
    let b := "#define NID_C 3\n#define NID_B 2\n#define NID_undef 0\n#define NID_C 3".toList
    let trimmed := "#define NID_A 0".toList
    a.getLast? = some '\n' ∧ missingNumbers a trimmed = ["NID_B".toList] ∧
      missingNumbers (a ++ b) trimmed = ["NID_B".toList, "NID_C".toList] := by
  intro a b trimmed
  have hlast : a.getLast? = some '\n' := rfl
  have hfirst : missingNumbers a trimmed = ["NID_B".toList] := by decide +kernel
  have hsecond : missingNumbers b trimmed = ["NID_C".toList, "NID_B".toList] := by decide +kernel
  refine ⟨hlast, hfirst, ?_⟩
  rw [(missing_in_order (a ++ b) trimmed).2.2.2.2.2 a b rfl (Or.inr hlast), hfirst, hsecond]
  decide

end ObjectTables.Header
