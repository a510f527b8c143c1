import ObjectTables.Numbering
import ObjectTables.Proofs.Header.Completeness

/-! The objects that a trim leaves out. A numbering and the header that is generated from it name the same
    objects, the numbering by the first word of a line and the header by a number macro (`DefinesSymbols`).
    So the numbers that are missing after a trim are those of the objects left out, apart from the aliases. -/

namespace ObjectTables.Header
open Text

/-- The number macro of an object. -/
def numberOf (symbol : Text) : Text := numberMark ++ symbol

/-- The symbol of the undefined object. -/
def undefinedSymbol : Text := "undef".toList

/-- A header defines the number of the undefined object and those of some symbols, and no other. -/
def DefinesSymbols (header : Text) (symbols : List Text) : Prop :=
  ∀ n, n ∈ definedNumbers header ↔ n = undefinedNumber ∨ ∃ s ∈ symbols, n = numberOf s

theorem numberOf_inj {s s' : Text} : numberOf s = numberOf s' ↔ s = s' :=
  List.append_cancel_left_eq .. |>.to_iff

theorem numberOf_undefinedSymbol : numberOf undefinedSymbol = undefinedNumber := by decide

theorem DefinesSymbols.mem {header : Text} {symbols : List Text} (h : DefinesSymbols header symbols) {s : Text}
    (hs : s ∈ symbols) : numberOf s ∈ definedNumbers header :=
  (h _).mpr (Or.inr ⟨s, hs, rfl⟩)

theorem DefinesSymbols.mem_iff {header : Text} {symbols : List Text} (h : DefinesSymbols header symbols) {s : Text} :
    numberOf s ∈ definedNumbers header ↔ s = undefinedSymbol ∨ s ∈ symbols := by
  rw [h, ← numberOf_undefinedSymbol, numberOf_inj]
  simp only [numberOf_inj, exists_eq_right']

theorem guarded_endLine {t : Text} (h : Guarded t) : Guarded (endLine t) := by
  unfold endLine
  split
  · exact h
  · next hend =>
    obtain ⟨line, hline, hguard⟩ := h
    obtain ⟨ls, l, hl, hl'⟩ := rawLines_append_newline fun he => hend (ended_iff.mp he)
    rw [hl] at hline
    rcases List.mem_append.mp hline with hline | hline
    · exact ⟨line, by rw [hl']; exact List.mem_append_left _ hline, hguard⟩
    · rw [List.mem_singleton.mp hline] at hguard
      refine ⟨l ++ ['\n'], by rw [hl']; exact List.mem_append_right _ (List.mem_singleton_self _), ?_⟩
      exact contains_iff.mpr ((contains_iff.mp hguard).trans (List.prefix_append _ _).isInfix)

theorem guarded_appendAliases {header : Text} (h : Guarded header) (compat : Text) :
    Guarded (appendAliases header compat) :=
  (guarded_append_iff (ended_endLine header) _).mpr (Or.inl (guarded_endLine h))

section Trim
variable {full : Numbering} {wanted : List Text} {compat fullHeader header : Text}

/-- What is missing after a trim, if the headers are generated from the numberings. -/
theorem mem_missing_trim (hfull : DefinesSymbols fullHeader full.symbols)
    (hheader : DefinesSymbols header (full.trim wanted).symbols) {n : Text} :
    n ∈ missingNumbers fullHeader (appendAliases header compat) ↔
      ∃ s ∈ full.symbols, s ≠ undefinedSymbol ∧ s ∉ (full.trim wanted).symbols ∧
        numberOf s ∉ definedNumbers compat ∧ n = numberOf s := by
  rw [mem_missingNumbers, definedNumbers_appendAliases, List.mem_append, not_or]
  constructor
  · rintro ⟨hn, hundefined, hheader', hcompat⟩
    rcases (hfull n).mp hn with rfl | ⟨s, hs, rfl⟩
    · exact absurd rfl hundefined
    · rw [hheader.mem_iff, not_or] at hheader'
      exact ⟨s, hs, hheader'.1, hheader'.2, hcompat, rfl⟩
  · rintro ⟨s, hs, hundefined, htrim, hcompat, rfl⟩
    refine ⟨hfull.mem hs, ?_, fun h => (hheader.mem_iff.mp h).elim hundefined htrim, hcompat⟩
    rw [← numberOf_undefinedSymbol, Ne, numberOf_inj]
    exact hundefined

/-- Every object is defined in the end: kept, by an alias or by a placeholder. -/
theorem numberOf_mem_complete (hfull : DefinesSymbols fullHeader full.symbols)
    (hheader : DefinesSymbols header (full.trim wanted).symbols) (hguard : Guarded header) {s : Text}
    (hs : s ∈ full.symbols) :
    numberOf s ∈ definedNumbers (complete fullHeader (appendAliases header compat)).text := by
  by_cases h : s = undefinedSymbol
  · rw [mem_definedNumbers_complete (guarded_appendAliases hguard compat), definedNumbers_appendAliases]
    exact Or.inl (List.mem_append_left _ (hheader.mem_iff.mpr (Or.inl h)))
  · refine mem_complete_of_full (guarded_appendAliases hguard compat) (hfull.mem hs) fun he => h ?_
    rwa [← numberOf_undefinedSymbol, numberOf_inj] at he

/-- Where nothing has an alias, an object is kept or missing, and not both. -/
theorem size_trim_add_length_missing (hdistinct : full.symbols.Nodup)
    (hfull : DefinesSymbols fullHeader full.symbols) (hheader : DefinesSymbols header (full.trim wanted).symbols)
    (hcompat : definedNumbers compat = []) (hundefined : undefinedSymbol ∉ full.symbols) :
    (full.trim wanted).size + (missingNumbers fullHeader (appendAliases header compat)).length = full.size := by
  have hperm : (missingNumbers fullHeader (appendAliases header compat)).Perm
      ((full.symbols.filter fun s => !wanted.contains s).map numberOf) := by
    rw [List.perm_ext_iff_of_nodup (nodup_missingNumbers _ _)
      (List.Pairwise.map numberOf (fun _ _ h he => h (numberOf_inj.mp he)) (hdistinct.filter _))]
    intro n
    rw [mem_missing_trim hfull hheader, List.mem_map]
    constructor
    · rintro ⟨s, hs, -, htrim, -, rfl⟩
      refine ⟨s, List.mem_filter.mpr ⟨hs, ?_⟩, rfl⟩
      simpa [hs] using htrim
    · rintro ⟨s, hs, rfl⟩
      obtain ⟨hs, hw⟩ := List.mem_filter.mp hs
      refine ⟨s, hs, fun h => hundefined (h ▸ hs), ?_, by simp [hcompat], rfl⟩
      simpa [hs] using hw
  have hsize : ∀ n : Numbering, n.size = n.symbols.length := fun n => (List.length_map _).symm
  rw [hperm.length_eq, List.length_map, hsize, hsize, Numbering.symbols_trim,
    ← List.countP_eq_length_filter, ← List.countP_eq_length_filter]
  simpa using (List.length_eq_countP_add_countP (l := full.symbols) (wanted.contains ·)).symm

end Trim

/-- A trim with headers that are generated from the numberings: each object of the full numbering is in the
    published header, and exactly those that are neither kept nor have an alias are there by a placeholder. -/
theorem trim_loses_nothing {numbering candidates fullHeader header : Text} (compat : Text)
    (distinct : (Numbering.ofText numbering).symbols.Nodup)
    (hfull : DefinesSymbols fullHeader (Numbering.ofText numbering).symbols)
    (hguard : Guarded header)
    (hheader : DefinesSymbols header
      ((Numbering.ofText numbering).trim (Numbering.listedSymbols candidates)).symbols) :
    let full := Numbering.ofText numbering
    let trimmed := full.trim (Numbering.listedSymbols candidates)
    let completed := complete fullHeader (appendAliases header compat)
    completed.missing.Nodup ∧
    (∀ n, n ∈ completed.missing ↔ ∃ s ∈ full.symbols, s ≠ undefinedSymbol ∧ s ∉ trimmed.symbols ∧
      numberOf s ∉ definedNumbers compat ∧ n = numberOf s) ∧
    (∀ s ∈ trimmed.symbols, numberOf s ∉ completed.missing) ∧
    (∀ s ∈ full.symbols, numberOf s ∈ definedNumbers (published completed.text)) ∧
    (definedNumbers compat = [] → undefinedSymbol ∉ full.symbols →
      trimmed.size + completed.missing.length = full.size) := by
  refine ⟨nodup_missingNumbers _ _, fun n => mem_missing_trim hfull hheader, fun s hs hmissing => ?_,
    fun s hs => ?_, size_trim_add_length_missing distinct hfull hheader⟩
  · obtain ⟨s', -, -, hs', -, he⟩ := (mem_missing_trim hfull hheader).mp hmissing
    exact hs' (numberOf_inj.mp he ▸ hs)
  · rw [definedNumbers_published]
    exact numberOf_mem_complete hfull hheader hguard hs

/-- Three objects besides the undefined one: one is kept, one has an alias, one gets a placeholder. -/
theorem trim_loses_nothing_kept_alias_placeholder :
    let full := Numbering.ofText "undef\t\t0\nA\t\t1\nB\t\t2\nC\t\t3\n".toList
    let trimmed := full.trim (Numbering.listedSymbols "A\n".toList)
    let header := "#define NID_undef 0\r\n#define NID_A\t0\n#endif /* OPENSSL_OBJ_MAC_H */".toList
    let fullHeader := "#define NID_undef 0\n#define NID_A 1\n# define NID_B 2\n#define NID_C 3\n".toList
    let compat := "/* aliases */\n#define NID_C NID_A\n".toList
    let completed := complete fullHeader (appendAliases header compat)
    full.symbols.Nodup ∧ DefinesSymbols fullHeader full.symbols ∧ Guarded header ∧
    DefinesSymbols header trimmed.symbols ∧ completed.missing = [numberOf ['B']] ∧
    numberOf ['B'] ∈ definedNumbers (published completed.text) := by
  intro full trimmed header fullHeader compat completed
  have hsymbols : full.symbols = [undefinedSymbol, ['A'], ['B'], ['C']] := by decide +kernel
  have htrimmed : trimmed.symbols = [['A']] := by decide +kernel
  have hdistinct : full.symbols.Nodup := by rw [hsymbols]; decide
  have hguard : Guarded header := by decide +kernel
  have hfull : DefinesSymbols fullHeader full.symbols := by
    intro n
    rw [hsymbols, show definedNumbers fullHeader =
      [undefinedNumber, numberOf ['A'], numberOf ['B'], numberOf ['C']] by decide +kernel]
    simp [numberOf_undefinedSymbol]
  have hheader : DefinesSymbols header trimmed.symbols := by
    intro n
    rw [htrimmed, show definedNumbers header = [undefinedNumber, numberOf ['A']] by decide +kernel]
    simp
  have h := trim_loses_nothing compat hdistinct hfull hguard hheader
  exact ⟨hdistinct, hfull, hguard, hheader, by decide +kernel, h.2.2.2.1 _ (by rw [hsymbols]; decide)⟩

end ObjectTables.Header
