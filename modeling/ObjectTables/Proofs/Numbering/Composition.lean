import ObjectTables.Proofs.Numbering.Trim

/-! Trims one after another. What a trim reads of a numbering is its symbols, and of the wanted symbols which they
    are (`trim_congr`): the numbers are made anew each time. So trims can be joined into one (`trim_trim`), and it
    does not matter which comes first. -/

namespace ObjectTables.Numbering

variable {full full' : Numbering} {wanted wanted' : List Text}

theorem trim_congr (hsymbols : full.symbols = full'.symbols) (hwanted : ∀ s, s ∈ wanted ↔ s ∈ wanted') :
    full.trim wanted = full'.trim wanted' := by
  have hcontains : ∀ s, wanted.contains s = wanted'.contains s := fun s => by
    rw [Bool.eq_iff_iff, List.contains_iff_mem, List.contains_iff_mem, hwanted]
  rw [trim, trim, hsymbols]
  simp only [hcontains]

/-- Two trims keep what both want. -/
theorem trim_trim (full : Numbering) (wanted wanted' : List Text) :
    (full.trim wanted).trim wanted' = full.trim (wanted ∩ wanted') := by
  have hboth : ∀ s, (wanted ∩ wanted').contains s = (wanted.contains s && wanted'.contains s) := fun s => by
    rw [Bool.eq_iff_iff, Bool.and_eq_true, List.contains_iff_mem, List.contains_iff_mem, List.contains_iff_mem,
      List.mem_inter_iff]
  rw [trim, symbols_trim, List.filter_filter, trim]
  simp only [hboth, Bool.and_comm]

theorem trim_comm (full : Numbering) (wanted wanted' : List Text) :
    (full.trim wanted).trim wanted' = (full.trim wanted').trim wanted := by
  rw [trim_trim, trim_trim]
  exact trim_congr rfl fun s => by rw [List.mem_inter_iff, List.mem_inter_iff, and_comm]

theorem trim_self (full : Numbering) (wanted : List Text) : (full.trim wanted).trim wanted = full.trim wanted := by
  rw [trim_trim]
  exact trim_congr rfl fun s => by rw [List.mem_inter_iff, and_self]

theorem keptPositions_subset (h : wanted ⊆ wanted') : full.keptPositions wanted ⊆ full.keptPositions wanted' := by
  intro i hi
  obtain ⟨s, hs, hsymbol⟩ := mem_keptPositions.mp hi
  exact mem_keptPositions.mpr ⟨s, h hs, hsymbol⟩

/-- Trims follow the laws of selections. The numbers before a trim do not matter, nor do the order of the wanted
    symbols and how often each is named; two trims make one, whichever comes first, and a trim done again changes
    nothing. Two objects that are kept have the same order if more is kept. -/
theorem trims_compose :
    (∀ (full full' : Numbering) (wanted wanted' : List Text), full.symbols = full'.symbols →
      (∀ s, s ∈ wanted ↔ s ∈ wanted') → full.trim wanted = full'.trim wanted') ∧
    (∀ (full : Numbering) (wanted wanted' : List Text),
      (full.trim wanted).trim wanted' = full.trim (wanted ∩ wanted') ∧
      (full.trim wanted').trim wanted = full.trim (wanted ∩ wanted')) ∧
    (∀ (full : Numbering) (wanted : List Text), (full.trim wanted).trim wanted = full.trim wanted) ∧
    ∀ (full : Numbering) (wanted wanted' : List Text), wanted ⊆ wanted' →
      (∀ i s, full.symbols[i]? = some s → s ∈ wanted →
        (full.trim wanted).objects[full.newPlace wanted i]? = some ⟨s, UInt32.ofNat (full.newPlace wanted i)⟩ ∧
        (full.trim wanted').objects[full.newPlace wanted' i]? = some ⟨s, UInt32.ofNat (full.newPlace wanted' i)⟩) ∧
      ∀ i ∈ full.keptPositions wanted, ∀ j ∈ full.keptPositions wanted,
        (full.newPlace wanted i < full.newPlace wanted j ↔ full.newPlace wanted' i < full.newPlace wanted' j) := by
  refine ⟨fun _ _ _ _ hsymbols hwanted => trim_congr hsymbols hwanted,
    fun full wanted wanted' => ⟨trim_trim full wanted wanted', ?_⟩, trim_self, fun full wanted wanted' hmore => ⟨?_, ?_⟩⟩
  · rw [trim_comm, trim_trim]
  · intro i s hi hs
    exact ⟨objects_trim_newPlace hi hs, objects_trim_newPlace hi (hmore hs)⟩
  · intro i hi j hj
    rw [newPlace_lt_iff hi hj, newPlace_lt_iff (keptPositions_subset hmore hi) (keptPositions_subset hmore hj)]

end ObjectTables.Numbering
