import Mathlib.Data.List.Nodup
import ObjectTables.Numbering

/-! What a trim makes of a numbering. It keeps the objects whose symbols are wanted, wherever they stand, and
    numbers them by their new places (`objects_trim`). An object that is kept comes after exactly the kept ones
    that came before it, so its new place is their count (`objects_trim_newPlace`), and no two objects change
    their order (`newPlace_lt_iff`). As long as the numbers fit, the result is the `Compaction` of the numbering
    to the wanted symbols, which determines the order of the numbers too. -/

namespace ObjectTables.Numbering

variable {full : Numbering} {wanted : List Text} {i j : Nat} {s t : Text}

/-! ### Objects and numbers -/

/-- The objects of a trimmed numbering are the wanted ones, each with its place for its number. -/
theorem objects_trim (full : Numbering) (wanted : List Text) : (full.trim wanted).objects =
    (full.symbols.filter (wanted.contains ·)).zipIdx.map fun (symbol, place) => ⟨symbol, UInt32.ofNat place⟩ := by
  simp [trim, ofSymbols, List.zipIdx_map, Function.comp_def]

theorem size_trim (full : Numbering) (wanted : List Text) :
    (full.trim wanted).size = full.symbols.countP (wanted.contains ·) := by
  rw [size, objects_trim, List.length_map, List.length_zipIdx, List.countP_eq_length_filter]

theorem objects_trim_getElem? {k : Nat} (h : (full.symbols.filter (wanted.contains ·))[k]? = some s) :
    (full.trim wanted).objects[k]? = some ⟨s, UInt32.ofNat k⟩ := by
  rw [objects_trim, List.getElem?_map, List.getElem?_zipIdx, h]
  simp

theorem ids_trim (h : full.symbols.countP (wanted.contains ·) ≤ UInt32.size) :
    (full.trim wanted).objects.map (·.id.toNat) = List.range (full.trim wanted).size := by
  rw [size_trim, objects_trim, List.map_map, List.countP_eq_length_filter]
  rw [List.countP_eq_length_filter] at h
  refine List.ext_getElem (by simp) fun k hk _ => ?_
  have hk' : k < UInt32.size := Nat.lt_of_lt_of_le (by simpa using hk) h
  simp [Nat.mod_eq_of_lt hk']

/-! ### Places -/

/-- The positions of the objects that a trim keeps. -/
def keptPositions (full : Numbering) (wanted : List Text) : List Nat := full.symbols.findIdxs (wanted.contains ·)

/-- The place that an object has after a trim, if it is kept: the number of the kept objects before it. -/
def newPlace (full : Numbering) (wanted : List Text) (i : Nat) : Nat :=
  full.symbols.countPBefore (wanted.contains ·) i

theorem mem_keptPositions : i ∈ full.keptPositions wanted ↔ ∃ s ∈ wanted, full.symbols[i]? = some s := by
  rw [keptPositions, List.mem_findIdxs_iff_exists_getElem_pos]
  simp only [List.contains_iff_mem, List.getElem?_eq_some_iff]
  constructor
  · rintro ⟨hi, hw⟩
    exact ⟨_, hw, hi, rfl⟩
  · rintro ⟨_, hw, hi, rfl⟩
    exact ⟨hi, hw⟩

theorem newPlace_lt_size (h : i ∈ full.keptPositions wanted) : full.newPlace wanted i < (full.trim wanted).size := by
  obtain ⟨hi, hw⟩ := List.mem_findIdxs_iff_exists_getElem_pos.mp h
  rw [size_trim]
  exact List.countPBefore_lt_countP_of_lt_length_of_pos (h := hi) hw

theorem keptPositions_newPlace (h : i ∈ full.keptPositions wanted) :
    (full.keptPositions wanted)[full.newPlace wanted i]? = some i := by
  have hplace := newPlace_lt_size h
  obtain ⟨hi, hw⟩ := List.mem_findIdxs_iff_exists_getElem_pos.mp h
  rw [size_trim] at hplace
  have hlength : full.newPlace wanted i < (full.symbols.findIdxs (wanted.contains ·)).length := by
    rwa [List.length_findIdxs]
  rw [keptPositions, List.getElem?_eq_getElem hlength, List.getElem_findIdxs_eq_findIdxNth, newPlace,
    List.findIdxNth_countPBefore_of_lt_length_of_pos hw]

/-- The symbols of a trimmed numbering are those at the kept positions. -/
theorem symbols_trim_eq_map (full : Numbering) (wanted : List Text) :
    (full.trim wanted).symbols.map some = (full.keptPositions wanted).map (full.symbols[·]?) := by
  rw [symbols_trim, keptPositions]
  refine List.ext_getElem (by simp [List.countP_eq_length_filter]) fun k hk _ => ?_
  rw [List.length_map] at hk
  rw [List.getElem_map, List.getElem_map, List.getElem_filter_eq_getElem_getElem_findIdxs hk, List.getElem?_eq_getElem]

/-- An object that is kept stands in its new place, and has it for its number. -/
theorem objects_trim_newPlace (hi : full.symbols[i]? = some s) (hs : s ∈ wanted) :
    (full.trim wanted).objects[full.newPlace wanted i]? = some ⟨s, UInt32.ofNat (full.newPlace wanted i)⟩ := by
  have hkept := keptPositions_newPlace (mem_keptPositions.mpr ⟨s, hs, hi⟩)
  have hsymbol := congrArg (·[full.newPlace wanted i]?) (symbols_trim_eq_map full wanted)
  simp only [List.getElem?_map, hkept, Option.map_some, hi, Option.map_eq_some_iff, Option.some.injEq,
    exists_eq_right, symbols_trim] at hsymbol
  exact objects_trim_getElem? hsymbol

/-- No two objects that are kept change their order. -/
theorem newPlace_lt_iff (hi : i ∈ full.keptPositions wanted) (hj : j ∈ full.keptPositions wanted) :
    full.newPlace wanted i < full.newPlace wanted j ↔ i < j := by
  have hplace := newPlace_lt_size hi
  obtain ⟨hilt, hiw⟩ := List.mem_findIdxs_iff_exists_getElem_pos.mp hi
  obtain ⟨hjlt, hjw⟩ := List.mem_findIdxs_iff_exists_getElem_pos.mp hj
  rw [size_trim] at hplace
  rw [← List.findIdxNth_lt_findIdxNth_iff_of_lt_countP hplace, newPlace, newPlace,
    List.findIdxNth_countPBefore_of_lt_length_of_pos hiw, List.findIdxNth_countPBefore_of_lt_length_of_pos hjw]

/-! ### Compaction -/

/-- A numbering has the wanted objects of another one, by their positions there in order, numbered from 0. -/
structure Compaction (full : Numbering) (wanted : List Text) (positions : List Nat) (trimmed : Numbering) : Prop where
  ordered : positions.Pairwise (· < ·)
  kept : ∀ i, i ∈ positions ↔ ∃ s ∈ wanted, full.symbols[i]? = some s
  symbols : trimmed.symbols.map some = positions.map (full.symbols[·]?)
  ids : trimmed.objects.map (·.id.toNat) = List.range positions.length

/-- The number of the first object with a symbol. -/
def idOf? (n : Numbering) (symbol : Text) : Option UInt32 := (n.objects.find? (·.symbol == symbol)).map (·.id)

theorem idOf?_of_mem {n : Numbering} (h : n.symbols.Nodup) {o : NumberedObject} (ho : o ∈ n.objects) :
    n.idOf? o.symbol = some o.id := by
  obtain ⟨p, hp⟩ := Option.isSome_iff_exists.mp
    (List.find?_isSome.mpr ⟨o, ho, beq_self_eq_true o.symbol⟩ : (n.objects.find? (·.symbol == o.symbol)).isSome)
  have hsymbol : p.symbol = o.symbol := by simpa using List.find?_some hp
  rw [idOf?, hp, List.inj_on_of_nodup_map h (List.mem_of_find?_eq_some hp) ho hsymbol]
  rfl

theorem compaction_trim (h : full.symbols.countP (wanted.contains ·) ≤ UInt32.size) :
    Compaction full wanted (full.keptPositions wanted) (full.trim wanted) where
  ordered := List.pairwise_findIdxs
  kept _ := mem_keptPositions
  symbols := symbols_trim_eq_map full wanted
  ids := by rw [ids_trim h, size_trim, keptPositions, List.length_findIdxs]

namespace Compaction

variable {positions : List Nat} {trimmed : Numbering} {o p : NumberedObject} {k : Nat}

theorem id_eq (h : Compaction full wanted positions trimmed) (ho : trimmed.objects[k]? = some o) : o.id.toNat = k := by
  have hid := congrArg (·[k]?) h.ids
  simp only [List.getElem?_map, ho, Option.map_some] at hid
  obtain ⟨hk, hid⟩ := List.getElem?_eq_some_iff.mp hid.symm
  rw [← hid, List.getElem_range]

theorem ids_lt (h : Compaction full wanted positions trimmed) : trimmed.objects.Pairwise (·.id < ·.id) := by
  have hrange := h.ids ▸ List.pairwise_lt_range (n := positions.length)
  exact (List.pairwise_map.mp hrange).imp UInt32.lt_iff_toNat_lt.mpr

/-- Of two objects in order the first has the smaller number. -/
theorem id_lt (h : Compaction full wanted positions trimmed) (hsub : [o, p].Sublist trimmed.objects) : o.id < p.id :=
  List.pairwise_iff_forall_sublist.mp h.ids_lt hsub

theorem exists_object (h : Compaction full wanted positions trimmed) (hk : positions[k]? = some i) :
    ∃ o, trimmed.objects[k]? = some o ∧ full.symbols[i]? = some o.symbol := by
  have hsymbol := congrArg (·[k]?) h.symbols
  simp only [List.getElem?_map, hk, Option.map_some, Option.map_eq_some_iff] at hsymbol
  obtain ⟨symbol, hs, hi⟩ := hsymbol
  rw [Numbering.symbols, List.getElem?_map, Option.map_eq_some_iff] at hs
  obtain ⟨o, ho, rfl⟩ := hs
  exact ⟨o, ho, hi.symm⟩

theorem place_lt (h : Compaction full wanted positions trimmed) {k l : Nat} (hk : positions[k]? = some i)
    (hl : positions[l]? = some j) (hlt : i < j) : k < l := by
  obtain ⟨hklt, hk⟩ := List.getElem?_eq_some_iff.mp hk
  obtain ⟨hllt, hl⟩ := List.getElem?_eq_some_iff.mp hl
  rcases Nat.lt_trichotomy k l with hkl | rfl | hlk
  · exact hkl
  · exact absurd (hk.symm.trans hl) (Nat.ne_of_lt hlt)
  · have hji := List.pairwise_iff_getElem.mp h.ordered l k hllt hklt hlk
    rw [hl, hk] at hji
    exact absurd hji (Nat.lt_asymm hlt)

/-- Objects at two wanted positions keep their order, and their numbers follow it. -/
theorem exists_objects_lt (h : Compaction full wanted positions trimmed) (hlt : i < j)
    (hi : full.symbols[i]? = some s) (hj : full.symbols[j]? = some t) (hs : s ∈ wanted) (ht : t ∈ wanted) :
    ∃ (k l : Nat) (o p : NumberedObject), positions[k]? = some i ∧ positions[l]? = some j ∧ k < l ∧
      trimmed.objects[k]? = some o ∧ trimmed.objects[l]? = some p ∧ o.symbol = s ∧ p.symbol = t ∧ o.id < p.id := by
  obtain ⟨k, hk⟩ := List.mem_iff_getElem?.mp ((h.kept i).mpr ⟨s, hs, hi⟩)
  obtain ⟨l, hl⟩ := List.mem_iff_getElem?.mp ((h.kept j).mpr ⟨t, ht, hj⟩)
  obtain ⟨o, ho, hos⟩ := h.exists_object hk
  obtain ⟨p, hp, hpt⟩ := h.exists_object hl
  have hkl := h.place_lt hk hl hlt
  refine ⟨k, l, o, p, hk, hl, hkl, ho, hp, ?_, ?_, ?_⟩
  · exact Option.some.inj (hos.symm.trans hi)
  · exact Option.some.inj (hpt.symm.trans hj)
  · rwa [UInt32.lt_iff_toNat_lt, h.id_eq ho, h.id_eq hp]

end Compaction

/-- A trim closes the gaps and does nothing else: it keeps the objects at the positions whose symbol is wanted, every
    one and in order, and numbers them from 0 without a gap. Of two objects that are kept the one that came first
    has the smaller number; where symbols are distinct they stay so, and this can be said of the symbols. -/
theorem trim_compacts (full : Numbering) (wanted : List Text)
    (hfits : full.symbols.countP (wanted.contains ·) ≤ UInt32.size) :
    let trimmed := full.trim wanted
    ∃ positions, Compaction full wanted positions trimmed ∧
      (∀ k (o : NumberedObject), trimmed.objects[k]? = some o → o.id.toNat = k) ∧
      trimmed.objects.map (·.id.toNat) = List.range trimmed.size ∧
      trimmed.objects.Pairwise (·.id < ·.id) ∧
      (∀ i j s t, i < j → full.symbols[i]? = some s → full.symbols[j]? = some t → s ∈ wanted → t ∈ wanted →
        ∃ (k l : Nat) (o p : NumberedObject), positions[k]? = some i ∧ positions[l]? = some j ∧ k < l ∧
          trimmed.objects[k]? = some o ∧ trimmed.objects[l]? = some p ∧ o.symbol = s ∧ p.symbol = t ∧ o.id < p.id) ∧
      (full.symbols.Nodup → trimmed.symbols.Nodup ∧
        ∀ s ∈ wanted, ∀ t ∈ wanted, [s, t].Sublist full.symbols →
          ∃ m n, trimmed.idOf? s = some m ∧ trimmed.idOf? t = some n ∧ m < n) := by
  intro trimmed
  have h := compaction_trim hfits
  refine ⟨_, h, fun _ _ ho => h.id_eq ho, ids_trim hfits, h.ids_lt,
    fun i j s t hlt hi hj hs ht => h.exists_objects_lt hlt hi hj hs ht, fun hdistinct => ?_⟩
  have hnodup : trimmed.symbols.Nodup := by
    rw [symbols_trim]
    exact hdistinct.filter _
  refine ⟨hnodup, fun s hs t ht hbefore => ?_⟩
  -- what stands in order is kept in order, and an object has its symbol's place
  have hsub : [s, t].Sublist trimmed.symbols := by
    have hfilter := hbefore.filter (wanted.contains ·)
    rwa [List.filter_eq_self.mpr (by simp [hs, ht]), ← symbols_trim] at hfilter
  obtain ⟨l, hl, hst⟩ := List.sublist_map_iff.mp hsub
  obtain ⟨o, p, rfl⟩ : ∃ o p, l = [o, p] := List.length_eq_two.mp (by simpa using (congrArg List.length hst).symm)
  obtain ⟨rfl, rfl⟩ : s = o.symbol ∧ t = p.symbol := by simpa using hst
  exact ⟨o.id, p.id, idOf?_of_mem hnodup (hl.subset (by simp)), idOf?_of_mem hnodup (hl.subset (by simp)), h.id_lt hl⟩

/-- Three of five objects are kept, whatever the order of the wanted symbols, and stay in their own. -/
theorem trim_compacts_reordered :
    let full : Numbering := ⟨[⟨"undef".toList, 7⟩, ⟨['A'], 3⟩, ⟨['B'], 9⟩, ⟨['C'], 1⟩, ⟨['D'], 0⟩]⟩
    let wanted : List Text := [['D'], ['X'], ['A'], ['D'], ['B']]
    let trimmed := full.trim wanted
    full.symbols.countP (wanted.contains ·) ≤ UInt32.size ∧ trimmed = ⟨[⟨['A'], 0⟩, ⟨['B'], 1⟩, ⟨['D'], 2⟩]⟩ ∧
      (∃ positions, Compaction full wanted positions trimmed) ∧
      ∃ m n, trimmed.idOf? ['A'] = some m ∧ trimmed.idOf? ['D'] = some n ∧ m < n := by
  intro full wanted trimmed
  have hfits : full.symbols.countP (wanted.contains ·) ≤ UInt32.size := by decide
  obtain ⟨positions, hcompaction, -, -, -, -, hdistinct⟩ := trim_compacts full wanted hfits
  obtain ⟨-, hlt⟩ := hdistinct (by decide)
  exact ⟨hfits, by decide, ⟨positions, hcompaction⟩, hlt ['A'] (by decide) ['D'] (by decide) (by decide)⟩

end ObjectTables.Numbering
