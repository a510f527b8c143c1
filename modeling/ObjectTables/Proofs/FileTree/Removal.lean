import ObjectTables.Proofs.FileTree.Creation

/-! Removing directories. What a path reaches from outside is removed with everything below it
    (`run_removeAll`); elsewhere nothing changes, whether the removal succeeds or not (`keeps_removeAll`). The removal
    of whatever a path leads to takes away, and does nothing else (`thins_removeAll`, `thins_removeFile`). -/

namespace ObjectTables.FileTree

variable {t t' : FileTree} {directory l : Location} {p : Path} {up : List Name} {n : Name}

/-- The tree has lost what stood at a location and below it, and nothing else. -/
def Erased (l : Location) (t t' : FileTree) : Prop := ∀ m, t'.get? m = if l <+: m then none else t.get? m

theorem removeDirectory_of_entry {slashed : Bool} (h : t.place directory p = .ok (.entry l n slashed))
    (hn : n.length ≤ maxName) (hnode : t.node? (l ++ [n]) = some (.directory [])) :
    t.removeDirectory directory p = .ok (t.erase (l ++ [n])) := by
  rw [removeDirectory, h, ok_bind]
  show (if _ then _ else _) = _
  rw [if_neg (Nat.not_lt.mpr hn), hnode]
  rfl

theorem removeDirectory_of_long {l : Location} {slashed : Bool} (h : t.place directory p = .ok (.entry l n slashed))
    (hn : maxName < n.length) : t.removeDirectory directory p = .error (.system .nameTooLong) := by
  rw [removeDirectory, h, ok_bind]
  show (if _ then _ else _) = _
  rw [if_pos hn]
  rfl

theorem eq_erase_of_removeDirectory (h : t.removeDirectory directory p = .ok t') :
    ∃ up n, EndsIn p up n ∧ t' = t.erase (target directory p) := by
  obtain ⟨place, hplace, hrest⟩ := bind_eq_ok.mp h
  cases place with
  | root => cases hrest
  | here => cases hrest
  | above => cases hrest
  | entry l n slashed =>
    obtain ⟨up, hends, -, -, -, hl, -⟩ := place_eq_entry.mp hplace
    refine ⟨up, n, hends, ?_⟩
    dsimp only at hrest
    split at hrest
    · cases hrest
    · split at hrest
      · cases hrest
      · cases hrest
      · rw [← hl]
        exact (Except.ok.inj hrest).symm
      · cases hrest

/-- The step of a removal that empties the directory. -/
def emptied (directory : Location) (p : Path) (t : FileTree) : Except Cause FileTree := do
  let l ← t.locate directory p
  t.enter l
  return t.clear l

/-- The step of a removal that removes the empty directory, if the path still leads there. -/
def removed (directory : Location) (p : Path) (t : FileTree) : Except Cause FileTree :=
  match t.removeDirectory directory p with
  | .error (.system .notFound) => .ok t
  | result => result

theorem removeAll_eq (directory : Location) (p : Path) : removeAll directory p =
    (do Change.make (emptied directory p); Change.make (removed directory p)) := rfl

theorem emptied_of_directory (h : t.locate directory p = .ok (target directory p))
    (hdir : t.get? (target directory p) = some .directory) :
    emptied directory p t = .ok (t.clear (target directory p)) := by
  rw [emptied, h, ok_bind, enter_of_directory hdir]
  rfl

theorem removed_of_error {e : Cause} (h : t.removeDirectory directory p = .error e) :
    removed directory p t = if e = .system .notFound then .ok t else .error e := by
  rw [removed, h]
  split
  · next heq => rw [Except.error.inj heq, if_pos rfl]
  · next hne => rw [if_neg fun he => hne (by rw [he])]

theorem node?_clear (hne : l ≠ []) (h : t.get? l = some .directory) :
    (t.clear l).node? l = some (.directory []) := by
  have hclear := get?_clear hne h
  refine node?_of_empty (by rw [hclear, if_pos rfl]) fun name => ?_
  rw [hclear, if_neg (by simp), if_pos (List.prefix_append _ _)]

theorem free_of_clear (hne : l ≠ []) (hdir : t.get? l = some .directory) {m : Location}
    (hm : t.Free m) : (t.clear l).Free m := by
  rw [Free, get?_clear hne hdir]
  split
  · exact Or.inr rfl
  · split
    · exact Or.inl rfl
    · exact hm

/-- Once a directory is emptied, it is removed, unless its path led through it and so no longer leads to it. -/
theorem removed_of_cleared (hends : EndsIn p up n) (h : t.reachesDirectory directory p = true) :
    ∃ t', removed directory p (t.clear (target directory p)) = .ok t' ∧
      (t' = t.clear (target directory p) ∨ t' = (t.clear (target directory p)).erase (target directory p)) := by
  have hne := hends.target_ne_nil directory
  obtain ⟨hlocate, hdir⟩ := reachesDirectory_iff.mp h
  obtain ⟨hfits, -, hway, -⟩ := locate_eq_ok.mp hlocate
  have hfree : ∀ q ∈ way directory p, (t.clear (target directory p)).Free q := fun q hq =>
    free_of_clear hne hdir (Or.inr (hway q hq))
  rcases place_of_free hfits hends.steps hfree with ⟨hplace, -⟩ | hplace
  · rw [hends.placeOf_eq] at hplace
    have hnode : (t.clear (target directory p)).node? (leads (start directory p) up ++ [n]) =
        some (.directory []) := by
      rw [← hends.target_eq]
      exact node?_clear hne hdir
    have hremove := removeDirectory_of_entry hplace (hfits.of_endsIn hends).2 hnode
    rw [← hends.target_eq] at hremove
    exact ⟨_, by rw [removed, hremove], Or.inr rfl⟩
  · have hremove : (t.clear (target directory p)).removeDirectory directory p = .error (.system .notFound) := by
      rw [removeDirectory, hplace]
      rfl
    exact ⟨_, by rw [removed_of_error hremove, if_pos rfl], Or.inl rfl⟩

/-- A directory that a path reaches from outside is removed with everything below it. -/
theorem run_removeAll (hends : EndsIn p up n) (houtside : Outside directory p)
    (h : t.reachesDirectory directory p = true) :
    ∃ t', (removeAll directory p).run t = (.ok (), t') ∧ Erased (target directory p) t t' := by
  obtain ⟨hlocate, htarget⟩ := reachesDirectory_iff.mp h
  obtain ⟨hfits, -, hway, -⟩ := locate_eq_ok.mp hlocate
  have hne := hends.target_ne_nil directory
  have hclear := get?_clear hne htarget
  have hdirs : ∀ q ∈ way directory p, (t.clear (target directory p)).get? q = some .directory := by
    intro q hq
    rw [hclear]
    split
    · rfl
    · next hqt => rw [if_neg fun hpre => hqt (houtside q hq hpre), hway q hq]
  have hplace : (t.clear (target directory p)).place directory p =
      .ok (.entry (leads (start directory p) up) n (Path.isSlashed p)) :=
    place_eq_entry.mpr ⟨up, hends, hfits.checkPath, (hfits.of_endsIn hends).1, hdirs, hends.target_eq.symm, rfl⟩
  have hremove := removeDirectory_of_entry hplace (hfits.of_endsIn hends).2
    (by rw [← hends.target_eq]; exact node?_clear hne htarget)
  rw [← hends.target_eq] at hremove
  refine ⟨(t.clear (target directory p)).erase (target directory p), ?_, fun m => ?_⟩
  · rw [removeAll_eq, run_bind_of_ok (Change.run_make_of_ok (emptied_of_directory hlocate htarget))]
    exact Change.run_make_of_ok (by rw [removed, hremove])
  · rw [get?_erase hne, hclear]
    split
    · rfl
    · next hm => rw [if_neg (by rintro rfl; exact hm List.prefix_rfl)]

/-- Removing a directory changes nothing elsewhere, whether it succeeds or not. -/
theorem keeps_removeAll (directory : Location) (hends : EndsIn p up n) :
    Keeps (Kept (¬ target directory p <+: ·) []) (removeAll directory p) := by
  have hne := hends.target_ne_nil directory
  refine Keeps.bind (Change.keeps_make (Kept.refl _ _) fun t t' ht m hm => Or.inl ?_) (fun _ _ _ h h' => h.trans h')
    fun _ => Change.keeps_make (Kept.refl _ _) fun t t' ht m hm => Or.inl ?_
  · obtain ⟨l, hlocate, ht⟩ := bind_eq_ok.mp ht
    obtain ⟨_, henter, ht⟩ := bind_eq_ok.mp ht
    obtain ⟨-, rfl, -⟩ := locate_eq_ok.mp hlocate
    obtain rfl := Except.ok.inj ht
    rw [get?_clear hne (enter_eq_ok.mp henter), if_neg (by rintro rfl; exact hm List.prefix_rfl), if_neg hm]
  · split at ht
    · obtain rfl := Except.ok.inj ht
      rfl
    · obtain ⟨-, -, -, rfl⟩ := eq_erase_of_removeDirectory ht
      rw [get?_erase hne, if_neg hm]

/-! ### Removals along any path -/

/-- Of what stood at a location and below it something may be gone, and nothing else has changed. -/
def Thinned (l : Location) (t t' : FileTree) : Prop := ∀ m, t'.get? m = t.get? m ∨ l <+: m ∧ t'.get? m = none

namespace Thinned

theorem refl (l : Location) (t : FileTree) : Thinned l t t := fun _ => Or.inl rfl

theorem trans {t'' : FileTree} (h : Thinned l t t') (h' : Thinned l t' t'') : Thinned l t t'' := by
  intro m
  rcases h' m with heq | hgone
  · rw [heq]
    exact h m
  · exact Or.inr hgone

theorem kept (h : Thinned l t t') : Kept (¬ l <+: ·) [] t t' :=
  fun m hm => Or.inl ((h m).resolve_right fun hgone => hm hgone.1)

theorem free {m : Location} (h : Thinned l t t') (hm : t.Free m) : t'.Free m := by
  rcases h m with heq | ⟨-, hnone⟩
  · rwa [Free, heq]
  · exact Or.inl hnone

end Thinned

theorem thinned_erase (hne : l ≠ []) : Thinned l t (t.erase l) := by
  intro m
  rw [get?_erase hne]
  split
  · next hm => exact Or.inr ⟨hm, rfl⟩
  · exact Or.inl rfl

theorem thinned_clear (h : t.get? l = some .directory) : Thinned l t (t.clear l) := by
  intro m
  by_cases hne : l = []
  · -- the root stays, and everything lies below it
    subst hne
    cases m with
    | nil => exact Or.inl rfl
    | cons name rest => exact Or.inr ⟨List.nil_prefix, rfl⟩
  · rw [get?_clear hne h]
    split
    · next hm => exact Or.inl (hm ▸ h.symm)
    · split
      · next hm => exact Or.inr ⟨hm, rfl⟩
      · exact Or.inl rfl

theorem thins_removeAll (directory : Location) (p : Path) :
    Keeps (Thinned (target directory p)) (removeAll directory p) := by
  refine Keeps.bind (Change.keeps_make (Thinned.refl _) fun t t' ht => ?_) (fun _ _ _ => Thinned.trans)
    fun _ => Change.keeps_make (Thinned.refl _) fun t t' ht => ?_
  · obtain ⟨m, hlocate, ht⟩ := bind_eq_ok.mp ht
    obtain ⟨_, henter, ht⟩ := bind_eq_ok.mp ht
    obtain ⟨-, rfl, -⟩ := locate_eq_ok.mp hlocate
    obtain rfl := Except.ok.inj ht
    exact thinned_clear (enter_eq_ok.mp henter)
  · split at ht
    · obtain rfl := Except.ok.inj ht
      exact Thinned.refl _ t
    · obtain ⟨_, _, hends, rfl⟩ := eq_erase_of_removeDirectory ht
      exact thinned_erase (hends.target_ne_nil directory)

theorem thins_removeFile (h : t.removeFile directory p = .ok t') : Thinned (target directory p) t t' := by
  obtain ⟨place, hplace, hrest⟩ := bind_eq_ok.mp h
  cases place with
  | root => cases hrest
  | here => cases hrest
  | above => cases hrest
  | entry m n slashed =>
    obtain ⟨up, hends, -, -, -, hm, -⟩ := place_eq_entry.mp hplace
    dsimp only at hrest
    split at hrest
    · cases hrest
    · cases hrest
    · split at hrest
      · cases hrest
      · obtain rfl := Except.ok.inj hrest
        rw [hm]
        exact thinned_erase (hends.target_ne_nil directory)

end ObjectTables.FileTree
