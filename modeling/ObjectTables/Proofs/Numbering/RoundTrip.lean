import Mathlib.Data.List.Basic
import ObjectTables.Proofs.Publication
import ObjectTables.Proofs.Regeneration.Part
import ObjectTables.Proofs.Text.Line

/-! Numbering files are read as what was written. A symbol that is a word is the first word of its line and the
    number the second (`words_lineOf`), so a numbering whose symbols are words is read back as itself
    (`ofText_toText`). What is read has such symbols only, and a trim keeps them, so what a run writes for the next
    call of the generator can be read again. -/

namespace ObjectTables

namespace Numbering
open Text

variable {n : Numbering} {t : Text}

/-! ### Numbers -/

/-- The digits of a number that fits are read as the number. -/
theorem readId?_toDigits (id : UInt32) : readId? (Nat.toDigits 10 id.toNat) = some id := by
  have hdigits : ∀ c ∈ Nat.toDigits 10 id.toNat, c.isDigit = true := fun c hc =>
    Nat.isDigit_of_mem_toDigits (by decide) (by decide) hc
  have hsign : ∀ rest, Nat.toDigits 10 id.toNat ≠ '+' :: rest := fun rest h => by
    have hplus := hdigits '+' (by rw [h]; exact List.mem_cons_self)
    exact absurd hplus (by decide)
  unfold readId?
  split
  · next rest h => exact absurd h (hsign rest)
  · rw [if_neg]
    · simp [Nat.ofDigitChars_ten_toDigits, UInt32.toNat_lt_size]
    · simp only [Bool.or_eq_true, Bool.not_eq_true', List.isEmpty_iff, Nat.toDigits_ne_nil, false_or]
      rw [List.all_eq_true.mpr hdigits]
      exact Bool.noConfusion

/-! ### Lines -/

/-- The symbols of a numbering are words. -/
def Writable (n : Numbering) : Prop := ∀ s ∈ n.symbols, s ≠ [] ∧ ∀ c ∈ s, isBlank c = false

theorem Writable.of_mem {o : NumberedObject} (h : n.Writable) (ho : o ∈ n.objects) :
    o.symbol ≠ [] ∧ ∀ c ∈ o.symbol, isBlank c = false := h _ (List.mem_map_of_mem ho)

theorem not_isBlank_of_isDigit {c : Char} (h : c.isDigit = true) : isBlank c = false := by
  have hrange : 48 ≤ c.toNat ∧ c.toNat ≤ 57 := by
    simpa [Char.isDigit, UInt32.le_iff_toNat_le] using h
  unfold isBlank
  generalize c.toNat = m at hrange
  simp only [Bool.or_eq_false_iff, Bool.and_eq_false_iff, decide_eq_false_iff_not, beq_eq_false_iff_ne]
  omega

theorem digits_not_isBlank (m : Nat) : ∀ c ∈ Nat.toDigits 10 m, isBlank c = false := fun _ hc =>
  not_isBlank_of_isDigit (Nat.isDigit_of_mem_toDigits (by decide) (by decide) hc)

theorem words_lineOf {o : NumberedObject} (hne : o.symbol ≠ []) (hword : ∀ c ∈ o.symbol, isBlank c = false) :
    words (lineOf o) = [o.symbol, Nat.toDigits 10 o.id.toNat] := by
  have htab : isBlank '\t' = true := by decide
  rw [lineOf, List.append_assoc, List.cons_append, List.cons_append, words_append_blank htab, words_cons_blank htab,
    words_append_blanks (by simp [isBlank]), words_of_forall_not hne hword,
    words_of_forall_not Nat.toDigits_ne_nil (digits_not_isBlank _), List.singleton_append]

theorem readLine?_lineOf {o : NumberedObject} (hne : o.symbol ≠ []) (hword : ∀ c ∈ o.symbol, isBlank c = false) :
    readLine? (lineOf o) = some (o.symbol, some o.id) := by
  unfold readLine?
  rw [words_lineOf hne hword]
  simp only [readId?_toDigits]

/-! ### Files -/

theorem ofText_eq (t : Text) : ofText t = ofSymbols ((rawLines t).filterMap readLine?) := by
  have hchomp : readLine? ∘ chomp = readLine? := funext fun line => by
    rw [Function.comp_apply, readLine?, words_chomp, readLine?]
  rw [ofText, lines, List.filterMap_map, hchomp]

/-- A numbering file has one line for each object. -/
theorem rawLines_toText (h : n.Writable) : rawLines n.toText = n.objects.map lineOf := by
  rw [toText, List.flatMap_def]
  refine (lined_of_forall fun l hl => ?_).rawLines_flatten
  obtain ⟨o, ho, rfl⟩ := List.mem_map.mp hl
  refine ⟨o.symbol ++ '\t' :: '\t' :: Nat.toDigits 10 o.id.toNat, fun hmem => ?_, rfl⟩
  have hblank : isBlank '\n' = true := by decide
  simp only [List.mem_append, List.mem_cons, Char.reduceEq, false_or] at hmem
  rcases hmem with hsymbol | hdigit
  · rw [(h.of_mem ho).2 _ hsymbol] at hblank
    cases hblank
  · rw [digits_not_isBlank _ _ hdigit] at hblank
    cases hblank

/-- Symbols that come with numbers keep them. -/
theorem ofSymbols_numbered (objects : List NumberedObject) :
    ofSymbols (objects.map fun o => (o.symbol, some o.id)) = ⟨objects⟩ := by
  rw [ofSymbols, List.zipIdx_map, List.map_map]
  congr 1
  calc objects.zipIdx.map _ = objects.zipIdx.map Prod.fst := List.map_congr_left fun _ _ => rfl
    _ = objects := List.zipIdx_map_fst ..

/-- What is written is read back. -/
theorem ofText_toText (h : n.Writable) : ofText n.toText = n := by
  have hread : ∀ o ∈ n.objects, readLine? (lineOf o) = some (o.symbol, some o.id) := fun o ho =>
    readLine?_lineOf (h.of_mem ho).1 (h.of_mem ho).2
  calc ofText n.toText = ofSymbols (n.objects.filterMap fun o => readLine? (lineOf o)) := by
        rw [ofText_eq, rawLines_toText h, List.filterMap_map]
        rfl
    _ = ofSymbols (n.objects.map fun o => (o.symbol, some o.id)) := by
        rw [List.filterMap_congr hread, List.filterMap_eq_map']
    _ = n := ofSymbols_numbered n.objects

theorem symbols_ofText (t : Text) : (ofText t).symbols = listedSymbols t := by
  have hfirst : ∀ line, (readLine? line).map (·.1) = (words line).head? := fun line => by
    unfold readLine?
    cases words line with
    | nil => rfl
    | cons symbol rest => cases rest <;> rfl
  rw [ofText, symbols_ofSymbols, List.map_filterMap, listedSymbols]
  simp only [hfirst]

/-- What is read can be written. -/
theorem writable_ofText (t : Text) : (ofText t).Writable := by
  intro s hs
  rw [symbols_ofText] at hs
  obtain ⟨line, -, hhead⟩ := List.mem_filterMap.mp hs
  have hmem := List.mem_of_head? hhead
  exact ⟨ne_nil_of_mem_words hmem, not_isBlank_of_mem_words hmem⟩

theorem Writable.trim (h : n.Writable) (wanted : List Text) : (n.trim wanted).Writable := by
  intro s hs
  rw [symbols_trim] at hs
  exact h s (List.mem_of_mem_filter hs)

/-- Of the numberings, those are read back whose symbols are words. -/
theorem ofText_toText_iff : ofText n.toText = n ↔ n.Writable :=
  ⟨fun h => h ▸ writable_ofText _, ofText_toText⟩

end Numbering

namespace Regeneration

variable {directory : Location} {tool : Tool} {sites : Sites} {files : ScratchFiles} {p p' : Progress}
  {full trimmed : Numbering}

/-- A run that has trimmed the numbering has it in the file that the next call reads. -/
theorem readText_of_trimNumbering (h : (trimNumbering directory tool sites files).run p = (.ok (full, trimmed), p')) :
    p'.tree.readText directory files.numbering = .ok trimmed.toText ∧ trimmed.Writable := by
  obtain ⟨_, p₁, -, h₁⟩ := run_bind_eq_ok h
  obtain ⟨fullText, p₂, -, h₂⟩ := run_bind_eq_ok h₁
  obtain ⟨candidates, p₃, -, h₃⟩ := run_bind_eq_ok h₂
  obtain ⟨_, p₄, h₄, h₅⟩ := run_bind_eq_ok h₃
  cases h₅
  obtain ⟨hwrite, -⟩ := Run.change_eq h₄
  exact ⟨Publication.readText_of_writeText hwrite, (Numbering.writable_ofText fullText).trim _⟩

end Regeneration

namespace Numbering

/-- A numbering of any size is read back from the file that it is written to if and only if its symbols are words. So
    is all that has been read, trimmed or not, and with it what a run writes for the next call of the generator. The
    symbols that a file lists are those of the numbering read from it, and stay the same when that is written. -/
theorem numbering_round_trip :
    (∀ n : Numbering, ofText n.toText = n ↔ ∀ s ∈ n.symbols, s ≠ [] ∧ ∀ c ∈ s, Text.isBlank c = false) ∧
    (∀ t, (ofText t).Writable ∧ ∀ wanted, ((ofText t).trim wanted).Writable) ∧
    (∀ t, ofText (ofText t).toText = ofText t) ∧
    (∀ (directory : Location) (tool : Tool) (sites : Sites) (files : ScratchFiles) (p p' : Progress)
      (full trimmed : Numbering),
      (Regeneration.trimNumbering directory tool sites files).run p = (.ok (full, trimmed), p') →
        p'.tree.readText directory files.numbering = .ok trimmed.toText ∧ ofText trimmed.toText = trimmed) ∧
    ∀ t, listedSymbols t = (ofText t).symbols ∧ listedSymbols t = listedSymbols (ofText t).toText := by
  have hagain : ∀ t, ofText (ofText t).toText = ofText t := fun t => ofText_toText (writable_ofText t)
  refine ⟨fun n => ofText_toText_iff, fun t => ⟨writable_ofText t, (writable_ofText t).trim⟩, hagain,
    fun directory tool sites files p p' full trimmed h => ?_, fun t => ⟨(symbols_ofText t).symm, ?_⟩⟩
  · obtain ⟨hread, hwritable⟩ := Regeneration.readText_of_trimNumbering h
    exact ⟨hread, ofText_toText hwritable⟩
  · rw [← symbols_ofText, ← symbols_ofText, hagain]

end Numbering

end ObjectTables
