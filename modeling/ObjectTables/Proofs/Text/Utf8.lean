import ObjectTables.Text.Utf8

/-! Encoded text can be read again (`decode?_encode`). A character is followed through the scanner byte by
    byte; the bounds on its second byte are those that its own range implies. -/

namespace ObjectTables.Bytes

theorem ofNat_val_toNat (c : Char) : Char.ofNat c.val.toNat = c := Char.ofNat_toNat c

theorem toNat_ofNat_of_lt {n : Nat} (h : n < 256) : (UInt8.ofNat n).toNat = n := by
  rw [UInt8.toNat_ofNat']
  exact Nat.mod_eq_of_lt h

/-- A byte that continues a character keeps to the bounds; the last one completes it. -/
theorem scan_last {low high : UInt8} {value v n : Nat} (hn : n < 64) (hlow : low.toNat ≤ n + 0x80)
    (hhigh : n + 0x80 ≤ high.toNat) (hv : v = value * 64 + n) (rest : Bytes) :
    scan (some ⟨1, low, high, value⟩) (UInt8.ofNat (n + 0x80) :: rest) = some (Char.ofNat v) :: scan none rest := by
  have hb : (UInt8.ofNat (n + 0x80)).toNat = n + 0x80 := toNat_ofNat_of_lt (by omega)
  rw [scan, if_pos ⟨by rw [UInt8.le_iff_toNat_le, hb]; exact hlow, by rw [UInt8.le_iff_toNat_le, hb]; exact hhigh⟩,
    if_pos (Nat.le_refl 1), hb]
  have : (n + 0x80) % 64 = n := by omega
  rw [this, hv]

theorem scan_more {owed : Nat} {low high : UInt8} {value n : Nat} (howed : 1 < owed) (hn : n < 64)
    (hlow : low.toNat ≤ n + 0x80) (hhigh : n + 0x80 ≤ high.toNat) (rest : Bytes) :
    scan (some ⟨owed, low, high, value⟩) (UInt8.ofNat (n + 0x80) :: rest) =
      scan (some ⟨owed - 1, 0x80, 0xBF, value * 64 + n⟩) rest := by
  have hb : (UInt8.ofNat (n + 0x80)).toNat = n + 0x80 := toNat_ofNat_of_lt (by omega)
  rw [scan, if_pos ⟨by rw [UInt8.le_iff_toNat_le, hb]; exact hlow, by rw [UInt8.le_iff_toNat_le, hb]; exact hhigh⟩,
    if_neg (by simpa using howed), hb]
  have : (n + 0x80) % 64 = n := by omega
  rw [this]

/-- The bounds on the second byte of a character, by its first. -/
theorem lead_begins {n owed low high value : Nat} (hn : n < 256)
    (h : 0xC2 ≤ n ∧ n < 0xE0 ∧ owed = 1 ∧ low = 0x80 ∧ high = 0xBF ∧ value = n % 32 ∨
      0xE0 ≤ n ∧ n < 0xF0 ∧ owed = 2 ∧ low = (if n = 0xE0 then 0xA0 else 0x80) ∧
        high = (if n = 0xED then 0x9F else 0xBF) ∧ value = n % 16 ∨
      0xF0 ≤ n ∧ n ≤ 0xF4 ∧ owed = 3 ∧ low = (if n = 0xF0 then 0x90 else 0x80) ∧
        high = (if n = 0xF4 then 0x8F else 0xBF) ∧ value = n % 8) :
    lead (UInt8.ofNat n) = .begins ⟨owed, UInt8.ofNat low, UInt8.ofNat high, value⟩ := by
  unfold lead
  simp only [toNat_ofNat_of_lt hn]
  rcases h with ⟨h1, h2, rfl, rfl, rfl, rfl⟩ | ⟨h1, h2, rfl, rfl, rfl, rfl⟩ | ⟨h1, h2, rfl, rfl, rfl, rfl⟩
  · rw [if_neg (by omega), if_neg (by omega), if_pos h2]
    rfl
  · rw [if_neg (by omega), if_neg (by omega), if_neg (by omega)]
    by_cases hE0 : n = 0xE0
    · subst hE0; rfl
    · by_cases hED : n = 0xED
      · subst hED; rfl
      · rw [if_neg hE0, if_neg hED, if_pos h2, if_neg hE0, if_neg hED]
        rfl
  · rw [if_neg (by omega), if_neg (by omega), if_neg (by omega), if_neg (by omega), if_neg (by omega),
      if_neg (by omega)]
    by_cases hF0 : n = 0xF0
    · subst hF0; rfl
    · by_cases hF4 : n = 0xF4
      · subst hF4; rfl
      · rw [if_neg hF0, if_pos (by omega), if_neg hF0, if_neg hF4]
        rfl

theorem scan_encodeChar (c : Char) (rest : Bytes) :
    scan none (String.utf8EncodeChar c ++ rest) = some c :: scan none rest := by
  have hvalid := c.valid
  unfold String.utf8EncodeChar
  simp only
  conv => rhs; rw [← ofNat_val_toNat c]
  have hrange : c.val.toNat < 0xD800 ∨ 0xDFFF < c.val.toNat ∧ c.val.toNat < 0x110000 := hvalid
  generalize c.val.toNat = v at hrange
  -- one, two, three or four bytes
  split
  · next h1 =>
    rw [List.singleton_append, scan, lead, toNat_ofNat_of_lt (by omega), if_pos (by omega)]
  · next h1 =>
    split
    · next h2 =>
      simp only [List.cons_append, List.nil_append]
      rw [scan, lead_begins (by omega) (Or.inl ⟨by omega, by omega, rfl, rfl, rfl, rfl⟩)]
      simp only
      rw [scan_last (v := v) (by omega) (by simp) (by simp; omega) (by omega)]
    · next h2 =>
      split
      · next h3 =>
        simp only [List.cons_append, List.nil_append]
        rw [scan, lead_begins (by omega) (Or.inr (Or.inl ⟨by omega, by omega, rfl, rfl, rfl, rfl⟩))]
        simp only
        rw [scan_more (by omega) (by omega) ?_ ?_, scan_last (v := v) (by omega) (by simp) (by simp; omega) (by omega)]
        · split
          · simp; omega
          · simp
        · split
          · simp; omega
          · simp; omega
      · next h3 =>
        simp only [List.cons_append, List.nil_append]
        rw [scan, lead_begins (by omega) (Or.inr (Or.inr ⟨by omega, by omega, rfl, rfl, rfl, rfl⟩))]
        simp only
        rw [scan_more (by omega) (by omega) ?_ ?_, scan_more (by omega) (by omega) (by simp) (by simp; omega),
          scan_last (v := v) (by omega) (by simp) (by simp; omega) (by omega)]
        · split
          · simp; omega
          · simp
        · split
          · simp; omega
          · simp; omega

theorem scan_encode (t : Text) : scan none t.encode = t.map some := by
  induction t with
  | nil => rfl
  | cons c t ih => rw [Text.encode, List.flatMap_cons, scan_encodeChar, ← Text.encode, ih, List.map_cons]

/-- Encoded text is read as itself. -/
@[simp] theorem decode?_encode (t : Text) : decode? t.encode = some t := by
  rw [decode?, scan_encode]
  induction t with
  | nil => rfl
  | cons c t ih =>
    rw [List.map_cons, List.mapM_cons, ih]
    rfl

end ObjectTables.Bytes
