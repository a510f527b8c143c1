import ObjectTables.Proofs.FileTree.Route
import ObjectTables.Proofs.Text.Utf8

/-! Reading and writing files. A file is read or written where its path leads. Reading depends on what
    stands there and on the way (`read_congr`); a write changes what stands there, and nothing else
    (`get?_of_write`). What else changes the tree, such as the work of several operations, is told by what
    it keeps (`Kept`). -/

namespace ObjectTables.FileTree

variable {t t' : FileTree} {directory l m : Location} {p : Path} {up : List Name} {n : Name} {x : Bytes}

/-! ### Changes of one location -/

/-- A new node without anything in it changes its location only, if what was there was no directory. -/
theorem get?_put_leaf {new : Node} (hne : l ≠ []) (hup : t.get? l.dropLast = some .directory)
    (hl : t.get? l ≠ some .directory) (hleaf : new.children = []) (m : Location) :
    (t.put l (some new)).get? m = if m = l then some new.entry else t.get? m := by
  rw [get?_put]
  split
  · next h =>
    obtain ⟨r, rfl⟩ := h.2.2
    rw [List.drop_left]
    cases r with
    | nil => simp
    | cons name r =>
      have hm : t.get? (l ++ name :: r) = none := get?_eq_none_of_isPrefix hl (List.prefix_append _ _) (by simp)
      simp [hleaf, hm]
  · next h =>
    rw [if_neg]
    rintro rfl
    exact h ⟨hne, hup, List.prefix_rfl⟩

theorem get?_setFile (hne : l ≠ []) (hup : t.get? l.dropLast = some .directory) (hl : t.get? l ≠ some .directory)
    (x : Bytes) (m : Location) : (t.setFile l x).get? m = if m = l then some (.file x) else t.get? m :=
  get?_put_leaf hne hup hl rfl m

theorem get?_setDirectory (hne : l ≠ []) (hup : t.get? l.dropLast = some .directory) (hl : t.get? l = none)
    (m : Location) : (t.setDirectory l).get? m = if m = l then some .directory else t.get? m :=
  get?_put_leaf hne hup (by rw [hl]; simp) rfl m

theorem get?_erase (hne : l ≠ []) (m : Location) : (t.erase l).get? m = if l <+: m then none else t.get? m := by
  rw [erase, get?_put]
  by_cases hm : l <+: m
  · rw [if_pos hm]
    split
    · rfl
    · next h =>
      have hup : t.get? l.dropLast ≠ some .directory := fun hd => h ⟨hne, hd, hm⟩
      have hl : t.get? l = none :=
        Option.eq_none_iff_forall_ne_some.mpr fun e he => hup (get?_dropLast (by rw [he]; rfl))
      by_cases hlm : l = m
      · rw [← hlm, hl]
      · exact get?_eq_none_of_isPrefix (by rw [hl]; simp) hm hlm
  · rw [if_neg hm, if_neg fun h => hm h.2.2]

theorem get?_clear (hne : l ≠ []) (hl : t.get? l = some .directory) (m : Location) :
    (t.clear l).get? m = if m = l then some .directory else if l <+: m then none else t.get? m := by
  have hup : t.get? l.dropLast = some .directory := get?_dropLast (by rw [hl]; rfl)
  rw [clear, if_neg hne, setDirectory, get?_put]
  by_cases hm : l <+: m
  · rw [if_pos ⟨hne, hup, hm⟩, if_pos hm]
    obtain ⟨r, rfl⟩ := hm
    rw [List.drop_left]
    cases r with
    | nil => simp [Node.entry]
    | cons name r => simp [Node.children]
  · rw [if_neg fun h => hm h.2.2, if_neg hm, if_neg]
    rintro rfl
    exact hm List.prefix_rfl

theorem node?_of_empty (hl : t.get? l = some .directory) (hempty : ∀ name, t.get? (l ++ [name]) = none) :
    t.node? l = some (.directory []) := by
  rw [get?, Option.map_eq_some_iff] at hl
  obtain ⟨node, hnode, hentry⟩ := hl
  obtain ⟨children, rfl⟩ := Node.entry_eq_directory_iff.mp hentry
  cases children with
  | nil => exact hnode
  | cons child children =>
    have hchild := hempty child.1
    rw [get?, node?_append, hnode] at hchild
    simp [Node.children] at hchild

/-! ### What is kept -/

/-- At the locations of `P` nothing has changed, but for directories at those of `ls` where nothing stood. -/
def Kept (P : Location → Prop) (ls : List Location) (t t' : FileTree) : Prop :=
  ∀ l, P l → t'.get? l = t.get? l ∨ l ∈ ls ∧ t.get? l = none ∧ t'.get? l = some .directory

namespace Kept

variable {P P' : Location → Prop} {ls ls' : List Location} {t'' : FileTree}

theorem refl (P : Location → Prop) (ls : List Location) (t : FileTree) : Kept P ls t t := fun _ _ => Or.inl rfl

theorem mono (h : Kept P ls t t') (hP : ∀ l, P' l → P l) (hls : ∀ l ∈ ls, l ∈ ls') : Kept P' ls' t t' :=
  fun l hl => (h l (hP l hl)).imp_right fun hmem => ⟨hls l hmem.1, hmem.2⟩

theorem trans (h : Kept P ls t t') (h' : Kept P ls t' t'') : Kept P ls t t'' := by
  intro l hl
  rcases h l hl with heq | ⟨hmem, hnone, hdir⟩
  · rw [← heq]
    exact h' l hl
  · rcases h' l hl with heq | ⟨-, hnone', -⟩
    · exact Or.inr ⟨hmem, hnone, heq.trans hdir⟩
    · rw [hdir] at hnone'
      cases hnone'

theorem get? {e : Entry} (h : Kept P ls t t') (hP : P l) (hl : t.get? l = some e) : t'.get? l = some e := by
  rcases h l hP with heq | ⟨-, hnone, -⟩
  · rw [heq, hl]
  · rw [hl] at hnone
    cases hnone

theorem free (h : Kept P ls t t') (hP : P l) (hl : t.Free l) : t'.Free l := by
  rcases h l hP with heq | ⟨-, -, hdir⟩
  · rwa [Free, heq]
  · exact Or.inr hdir

end Kept

/-! ### Reading -/

theorem read_eq_ok : t.read directory p = .ok x ↔ ∃ l, t.locate directory p = .ok l ∧ t.get? l = some (.file x) := by
  refine bind_eq_ok.trans (exists_congr fun l => and_congr_right fun _ => ?_)
  cases t.get? l with
  | none => exact ⟨fun h => (nomatch h), fun h => (nomatch h)⟩
  | some e =>
    cases e with
    | directory => exact ⟨fun h => (nomatch h), fun h => (nomatch h)⟩
    | file y =>
      refine ⟨fun h => ?_, fun h => ?_⟩
      · rw [Except.ok.inj h]
      · rw [Entry.file.inj (Option.some.inj h)]
        rfl

theorem get?_of_read (h : t.read directory p = .ok x) : t.get? (target directory p) = some (.file x) := by
  obtain ⟨l, hl, hx⟩ := read_eq_ok.mp h
  obtain ⟨-, rfl, -⟩ := locate_eq_ok.mp hl
  exact hx

theorem readText_eq_ok {text : Text} : t.readText directory p = .ok text ↔
    ∃ x, t.read directory p = .ok x ∧ Bytes.decode? x = some text := by
  refine bind_eq_ok.trans (exists_congr fun x => and_congr_right fun _ => ?_)
  cases Bytes.decode? x with
  | none => exact ⟨fun h => (nomatch h), fun h => (nomatch h)⟩
  | some y =>
    refine ⟨fun h => ?_, fun h => ?_⟩
    · rw [Except.ok.inj h]
    · rw [Option.some.inj h]
      rfl

/-- What leads to no text cannot be read as one. -/
theorem readText_of_no_text
    (h : ∀ x text, t.get? (target directory p) = some (.file x) → Bytes.decode? x ≠ some text) :
    ∃ e, t.readText directory p = .error e := by
  cases hread : t.readText directory p with
  | error e => exact ⟨e, rfl⟩
  | ok text =>
    obtain ⟨x, hx, htext⟩ := readText_eq_ok.mp hread
    exact absurd htext (h x text (get?_of_read hx))

theorem locate_congr (h : ∀ q ∈ target directory p :: way directory p, t'.get? q = t.get? q) :
    t'.locate directory p = .ok m ↔ t.locate directory p = .ok m := by
  obtain ⟨htarget, hway⟩ := List.forall_mem_cons.mp h
  rw [locate_eq_ok, locate_eq_ok]
  refine and_congr_right fun _ => and_congr_right fun hm => and_congr ?_ ?_
  · exact forall_congr' fun q => forall_congr' fun hq => by rw [hway q hq]
  · rw [hm, htarget]

theorem read_congr (h : ∀ q ∈ target directory p :: way directory p, t'.get? q = t.get? q) :
    t'.read directory p = .ok x ↔ t.read directory p = .ok x := by
  rw [read_eq_ok, read_eq_ok]
  refine exists_congr fun l => ?_
  rw [locate_congr h]
  refine and_congr_right fun hl => ?_
  obtain ⟨-, rfl, -⟩ := locate_eq_ok.mp hl
  rw [h _ List.mem_cons_self]

/-- What can be read can still be read where all that is needed for it is kept. -/
theorem Kept.read {P : Location → Prop} {ls : List Location} (h : Kept P ls t t')
    (hP : ∀ q ∈ target directory p :: way directory p, P q) (hr : t.read directory p = .ok x) :
    t'.read directory p = .ok x := by
  refine (read_congr fun q hq => ?_).mpr hr
  obtain ⟨l, hlocate, hx⟩ := read_eq_ok.mp hr
  obtain ⟨-, rfl, hway, -⟩ := locate_eq_ok.mp hlocate
  rcases List.mem_cons.mp hq with rfl | hq'
  · rw [h.get? (hP _ hq) hx, hx]
  · rw [h.get? (hP q hq) (hway q hq'), hway q hq']

theorem Kept.readText {P : Location → Prop} {ls : List Location} {text : Text} (h : Kept P ls t t')
    (hP : ∀ q ∈ target directory p :: way directory p, P q) (hr : t.readText directory p = .ok text) :
    t'.readText directory p = .ok text := by
  obtain ⟨x, hx, htext⟩ := readText_eq_ok.mp hr
  exact readText_eq_ok.mpr ⟨x, h.read hP hx, htext⟩

/-! ### Writing -/

theorem fits_of_names (hsteps : p.steps = up ++ [n]) (hcheck : checkPath p = .ok ())
    (hup : ∀ s ∈ up, s.length ≤ maxName) (hn : n.length ≤ maxName) : Fits p := by
  obtain ⟨hnul, hne, hshort⟩ := checkPath_eq_ok.mp hcheck
  refine ⟨hnul, hne, hshort, ?_⟩
  rw [hsteps]
  exact List.forall_mem_append.mpr ⟨hup, List.forall_mem_singleton.mpr hn⟩

theorem Fits.of_endsIn (h : Fits p) (hends : EndsIn p up n) :
    (∀ s ∈ up, s.length ≤ maxName) ∧ n.length ≤ maxName := by
  have hnames := h.names
  rw [hends.steps] at hnames
  exact ⟨fun s hs => hnames s (List.mem_append_left _ hs), hnames n (List.mem_append_right _ List.mem_cons_self)⟩

theorem writable_of_entry (h : t.place directory p = .ok (.entry l n false)) : t.writable directory p =
    if maxName < n.length then .error (.system .nameTooLong)
    else if t.isDirectory (l ++ [n]) then .error (.system .isDirectory) else .ok (l ++ [n]) := by
  rw [writable, h]
  show (if _ then _ else _) = _
  repeat' split
  all_goals rfl

/-- A file can be written if its path ends in a name, passes directories only and leads to no directory. -/
theorem writable_eq_ok : t.writable directory p = .ok m ↔ (∃ up n, EndsIn p up n) ∧ Fits p ∧
    Path.isSlashed p = false ∧ m = target directory p ∧ (∀ q ∈ way directory p, t.get? q = some .directory) ∧
    t.get? m ≠ some .directory := by
  have isDirectory_iff (l : Location) : t.isDirectory l = true ↔ t.get? l = some .directory := by
    simp [isDirectory]
  constructor
  · intro h
    obtain ⟨place, hplace, hrest⟩ := bind_eq_ok.mp h
    match place, hplace, hrest with
    | .entry l n false, hplace, _ =>
      rw [writable_of_entry hplace] at h
      obtain ⟨up, hends, hcheck, hup, hway, hl, hslashed⟩ := place_eq_entry.mp hplace
      split at h
      · cases h
      · next hn =>
        split at h
        · cases h
        · next hdir =>
          obtain rfl := Except.ok.inj h
          exact ⟨⟨up, n, hends⟩, fits_of_names hends.steps hcheck hup (Nat.le_of_not_lt hn), hslashed.symm, hl, hway,
            fun hd => hdir ((isDirectory_iff _).mpr hd)⟩
  · rintro ⟨⟨up, n, hends⟩, hfits, hslashed, rfl, hway, hdir⟩
    obtain ⟨hup, hn⟩ := hfits.of_endsIn hends
    have hplace : t.place directory p = .ok (.entry (leads (start directory p) up) n false) :=
      place_eq_entry.mpr ⟨up, hends, hfits.checkPath, hup, hway, hends.target_eq.symm, hslashed.symm⟩
    rw [writable_of_entry hplace, if_neg (Nat.not_lt.mpr hn), if_neg, hends.target_eq]
    rw [isDirectory_iff, ← hends.target_eq]
    exact hdir

/-- A path that leads to a file ends in a name: the other steps lead to directories. -/
theorem endsIn_of_file (hfits : Fits p) (hway : ∀ q ∈ way directory p, t.get? q = some .directory)
    (hx : t.get? (target directory p) = some (.file x)) : ∃ up n, EndsIn p up n := by
  rcases List.eq_nil_or_concat p.steps with hnil | ⟨up, n, hsteps⟩
  · rw [target, hnil, start, if_pos (Path.isAbsolute_of_steps_eq_nil hfits.nonempty hnil)] at hx
    cases hx
  · rw [List.concat_eq_append] at hsteps
    have hstay : ¬ (n = Path.here ∨ n = Path.above) := fun hn => by
      rw [get?_target_of_stay hway hsteps hn] at hx
      cases hx
    exact ⟨up, n, hsteps, not_or.mp hstay⟩

/-- A file that can be read can be written. -/
theorem writable_of_read (h : t.read directory p = .ok x) : t.writable directory p = .ok (target directory p) := by
  obtain ⟨l, hlocate, hx⟩ := read_eq_ok.mp h
  obtain ⟨hfits, rfl, hway, -, hslashed⟩ := locate_eq_ok.mp hlocate
  have hfile : t.get? (target directory p) ≠ some .directory := by
    rw [hx]
    simp
  refine writable_eq_ok.mpr ⟨endsIn_of_file hfits hway hx, hfits, ?_, rfl, hway, hfile⟩
  exact Bool.eq_false_iff.mpr fun hs => hfile (hslashed hs)

theorem get?_of_write (h : t.write directory p x = .ok t') (m : Location) :
    t'.get? m = if m = target directory p then some (.file x) else t.get? m := by
  obtain ⟨l, hl, ht⟩ := bind_eq_ok.mp h
  obtain ⟨⟨up, n, hends⟩, -, -, rfl, hway, hdir⟩ := writable_eq_ok.mp hl
  obtain rfl := Except.ok.inj ht
  exact get?_setFile (hends.target_ne_nil directory) (hway _ hends.dropLast_target) hdir x m

/-- What is written can be read back. -/
theorem read_of_write (h : t.write directory p x = .ok t') : t'.read directory p = .ok x := by
  have hget := get?_of_write h
  obtain ⟨l, hl, -⟩ := bind_eq_ok.mp h
  obtain ⟨-, hfits, hslashed, rfl, hway, hdir⟩ := writable_eq_ok.mp hl
  have hfile : t'.get? (target directory p) = some (.file x) := by rw [hget, if_pos rfl]
  refine read_eq_ok.mpr ⟨_, locate_eq_ok.mpr ⟨hfits, rfl, fun q hq => ?_, fun _ => ?_, fun hs => ?_⟩, hfile⟩
  · rw [hget, if_neg, hway q hq]
    rintro rfl
    exact hdir (hway _ hq)
  · rw [hfile]
    rfl
  · rw [hslashed] at hs
    cases hs

/-- Text that has been written is read as that text. -/
theorem readText_of_write {text : Text} (h : t.write directory p text.encode = .ok t') :
    t'.readText directory p = .ok text :=
  readText_eq_ok.mpr ⟨_, read_of_write h, Bytes.decode?_encode text⟩

/-- A write changes nothing for the files that stand elsewhere. -/
theorem read_of_write_elsewhere {p' : Path} {y : Bytes} (h : t.write directory p x = .ok t')
    (hne : target directory p' ≠ target directory p) (hread : t.read directory p' = .ok y) :
    t'.read directory p' = .ok y := by
  obtain ⟨l, hl, -⟩ := bind_eq_ok.mp h
  obtain ⟨-, -, -, rfl, -, hdir⟩ := writable_eq_ok.mp hl
  obtain ⟨_, hlocate, -⟩ := read_eq_ok.mp hread
  refine (read_congr fun q hq => ?_).mpr hread
  rw [get?_of_write h, if_neg]
  rintro rfl
  rcases List.mem_cons.mp hq with heq | hway
  · exact hne heq.symm
  · exact hdir ((locate_eq_ok.mp hlocate).2.2.1 _ hway)

theorem write_of_writable (h : t.writable directory p = .ok m) (x : Bytes) : ∃ t', t.write directory p x = .ok t' :=
  ⟨_, bind_eq_ok.mpr ⟨m, h, rfl⟩⟩

end ObjectTables.FileTree
