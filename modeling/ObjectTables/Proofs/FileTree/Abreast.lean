import ObjectTables.Proofs.Comparison
import ObjectTables.Proofs.FileTree.Uniform

/-! Two trees that are changed by the same operations. They move in step if each location is left alone in both, or
    comes to hold the same in both (`Abreast`). So what they agree on they go on to agree on, and leftovers that
    differ can only be made equal. Directories are created and removed in step (`createAll_abreast`,
    `removeAll_abreast`). -/

namespace ObjectTables.FileTree

variable {t u t' u' : FileTree} {directory l : Location} {p : Path} {ls ls' : List Location} {up : List Name} {n : Name}

/-- Two trees have moved in step: each location is as it was in both, or both hold the same there, which is a
    directory at the locations `ls`. -/
def Abreast (ls : List Location) (t u t' u' : FileTree) : Prop :=
  ∀ l, (t'.get? l = t.get? l ∧ u'.get? l = u.get? l) ∨
    t'.get? l = u'.get? l ∧ (l ∈ ls → t'.get? l = some .directory)

namespace Abreast

theorem refl (ls : List Location) (t u : FileTree) : Abreast ls t u t u := fun _ => Or.inl ⟨rfl, rfl⟩

theorem trans {t'' u'' : FileTree} (h : Abreast ls t u t' u') (h' : Abreast ls t' u' t'' u'') :
    Abreast ls t u t'' u'' := by
  intro l
  rcases h' l with ⟨ht, hu⟩ | hsame
  · rw [ht, hu]
    exact h l
  · exact Or.inr hsame

theorem trans_all (ls : List Location) (t u t' u' t'' u'' : FileTree) (h : Abreast ls t u t' u')
    (h' : Abreast ls t' u' t'' u'') : Abreast ls t u t'' u'' := h.trans h'

/-- Where two trees agree, they go on to. -/
theorem get? (h : Abreast ls t u t' u') (hl : t.get? l = u.get? l) : t'.get? l = u'.get? l := by
  rcases h l with ⟨ht, hu⟩ | ⟨hsame, -⟩
  · rw [ht, hu, hl]
  · exact hsame

theorem agree (h : Abreast ls t u t' u') (hagree : Agree ls' t u) : Agree ls' t' u' := fun l hl => h.get? (hagree l hl)

theorem free (h : Abreast ls t u t' u') (hl : l ∈ ls) (hfree : t.Free l ∧ u.Free l) : t'.Free l ∧ u'.Free l := by
  rcases h l with ⟨ht, hu⟩ | ⟨hsame, hdir⟩
  · rwa [Free, Free, ht, hu]
  · exact ⟨Or.inr (hdir hl), Or.inr (hsame ▸ hdir hl)⟩

end Abreast

/-- Directories have been made at the same locations, and nothing else is left below one location. -/
theorem abreast_of_remade {made : List Location} (hls : ∀ m ∈ ls, ¬ l <+: m)
    (ht : ∀ m, t'.get? m = if m ∈ made then some .directory else if l <+: m then none else t.get? m)
    (hu : ∀ m, u'.get? m = if m ∈ made then some .directory else if l <+: m then none else u.get? m) :
    Abreast ls t u t' u' ∧ ∀ m, m ∈ made ∨ l <+: m → t'.get? m = u'.get? m := by
  have hsame (m : Location) (hm : m ∈ made ∨ l <+: m) : t'.get? m = u'.get? m := by
    rw [ht, hu]
    by_cases hmade : m ∈ made
    · rw [if_pos hmade, if_pos hmade]
    · rw [if_neg hmade, if_neg hmade, if_pos (hm.resolve_left hmade), if_pos (hm.resolve_left hmade)]
  refine ⟨fun m => ?_, hsame⟩
  by_cases hmade : m ∈ made
  · exact Or.inr ⟨hsame m (Or.inl hmade), fun _ => by rw [ht, if_pos hmade]⟩
  · by_cases hpre : l <+: m
    · exact Or.inr ⟨hsame m (Or.inr hpre), fun hmem => absurd hpre (hls m hmem)⟩
    · rw [ht, hu, if_neg hmade, if_neg hpre, if_neg hmade, if_neg hpre]
      exact Or.inl ⟨rfl, rfl⟩

/-- The trees lead on or are missing something at all of some locations, or they are the same there. -/
def Comparable (ls : List Location) (t u : FileTree) : Prop := (∀ l ∈ ls, t.Free l ∧ u.Free l) ∨ Agree ls t u

instance (ls : List Location) (t u : FileTree) : Decidable (Comparable ls t u) :=
  inferInstanceAs (Decidable ((∀ l ∈ ls, t.Free l ∧ u.Free l) ∨ Agree ls t u))

theorem stable_agree (ls ls' : List Location) : Stable (Abreast ls) (Agree ls') := fun _ _ _ _ h => h.agree

theorem stable_comparable (h : ∀ l ∈ ls', l ∈ ls) : Stable (Abreast ls) (Comparable ls') := by
  intro t u t' u' hstep hways
  rcases hways with hfree | hagree
  · exact Or.inl fun l hl => hstep.free (h l hl) (hfree l hl)
  · exact Or.inr (hstep.agree hagree)

/-! ### Creating directories -/

/-- A directory can be created alike: the ways agree, and where they lead there is nothing else, or the same. -/
def Creatable (directory : Location) (p : Path) (t u : FileTree) : Prop :=
  Agree (start directory p :: way directory p) t u ∧ (t.Free (target directory p) ∧ u.Free (target directory p) ∨
    t.get? (target directory p) = u.get? (target directory p))

theorem stable_creatable (ls : List Location) (directory : Location) (p : Path) :
    Stable (Abreast ls) (Creatable directory p) := by
  intro t u t' u' hstep h
  refine ⟨hstep.agree h.1, ?_⟩
  rcases hstep (target directory p) with ⟨ht, hu⟩ | ⟨hsame, -⟩
  · rw [Free, Free, ht, hu]
    exact h.2
  · exact Or.inr hsame

theorem created_of_free (hfits : Fits p) (hway : ∀ q ∈ way directory p, t.get? q = some .directory)
    (hstart : t.get? (start directory p) = some .directory) (htarget : t.Free (target directory p)) :
    ∃ t', created directory p t = .ok t' ∧
      ∀ l, t'.get? l = if l = target directory p then some .directory else t.get? l := by
  have hfree : ∀ q ∈ target directory p :: way directory p, t.Free q :=
    List.forall_mem_cons.mpr ⟨htarget, fun q hq => Or.inr (hway q hq)⟩
  rcases createDirectory_of_free hfits hstart hfree with ⟨t', hc⟩ | ⟨hc, hr⟩ | ⟨-, hnot⟩
  · exact ⟨t', by rw [created, hc], (get?_of_createDirectory hc).2.2⟩
  · refine ⟨t, by rw [created, hc, hr]; rfl, fun l => ?_⟩
    split
    · next hl => rw [hl, (reachesDirectory_iff.mp hr).2]
    · rfl
  · exact absurd hway hnot

theorem createDirectory_agree (h : Agree (target directory p :: way directory p) t u) :
    (∃ e, t.createDirectory directory p = .error e ∧ u.createDirectory directory p = .error e) ∨
    ∃ t' u', t.createDirectory directory p = .ok t' ∧ u.createDirectory directory p = .ok u' := by
  have hplace := place_agree ((agree_cons.mp h).2)
  cases hp : u.place directory p with
  | error e => exact Or.inl ⟨e, createDirectory_of_place (hplace.trans hp), createDirectory_of_place hp⟩
  | ok place =>
    cases place with
    | entry l n slashed =>
      obtain ⟨-, -, -, -, -, hl, -⟩ := place_eq_entry.mp hp
      rw [createDirectory_of_entry hp, createDirectory_of_entry (hplace.trans hp), hl, h _ List.mem_cons_self]
      split
      · exact Or.inl ⟨_, rfl, rfl⟩
      · split
        · exact Or.inl ⟨_, rfl, rfl⟩
        · exact Or.inr ⟨_, _, rfl, rfl⟩
    | _ =>
      refine Or.inl ⟨_, createDirectory_of_not_entry (hplace.trans hp) (by simp),
        createDirectory_of_not_entry hp (by simp)⟩

theorem place_of_reachesDirectory (h : t.reachesDirectory directory p = true) :
    ∃ place, t.place directory p = .ok place := by
  obtain ⟨hfits, -, hway, -⟩ := locate_eq_ok.mp (reachesDirectory_iff.mp h).1
  rcases List.eq_nil_or_concat p.steps with hnil | ⟨up, n, hsteps⟩
  · refine ⟨.root, ?_⟩
    rw [place, hfits.checkPath, hnil]
    rfl
  · rw [List.concat_eq_append] at hsteps
    refine ⟨_, (place_eq_ok hsteps).mpr ⟨hfits.checkPath, fun s hs => hfits.names s ?_, hway, rfl⟩⟩
    rw [hsteps]
    exact List.mem_append_left _ hs

theorem created_of_error {e : Cause} (h : t.createDirectory directory p = .error e)
    (hr : t.reachesDirectory directory p = false) : created directory p t = .error e := by
  rw [created, h, hr]
  rfl

theorem way_of_place {place : Place} (h : t.place directory p = .ok place) :
    ∀ q ∈ way directory p, t.get? q = some .directory := by
  rcases List.eq_nil_or_concat p.steps with hnil | ⟨up, n, hsteps⟩
  · rw [way, hnil]
    exact fun q hq => absurd hq List.not_mem_nil
  · rw [List.concat_eq_append] at hsteps
    exact ((place_eq_ok hsteps).mp h).2.2.1

/-- A path that names a place but is not within the limits ends in a name that is too long. -/
theorem createDirectory_of_not_fits (directory : Location) (h : ¬Fits p) (place : Place) :
    ∃ e, ∀ t : FileTree, t.place directory p = .ok place → t.createDirectory directory p = .error e := by
  cases place with
  | entry l n slashed =>
    refine ⟨.system .nameTooLong, fun t hplace => ?_⟩
    obtain ⟨up, hends, hcheck, hup, -⟩ := place_eq_entry.mp hplace
    rw [createDirectory_of_entry hplace, if_pos]
    exact Nat.lt_of_not_le fun hn => h (fits_of_names hends.steps hcheck hup hn)
  | _ => exact ⟨.system .alreadyExists, fun t hplace => createDirectory_of_not_entry hplace (by simp)⟩

theorem abreast_of_made (ls : List Location) (ht : ∀ m, t'.get? m = if m = l then some .directory else t.get? m)
    (hu : ∀ m, u'.get? m = if m = l then some .directory else u.get? m) : Abreast ls t u t' u' := by
  intro m
  rw [ht, hu]
  by_cases hm : m = l
  · rw [if_pos hm, if_pos hm]
    exact Or.inr ⟨rfl, fun _ => rfl⟩
  · rw [if_neg hm, if_neg hm]
    exact Or.inl ⟨rfl, rfl⟩

theorem created_of_agree (ls : List Location) (h : Agree (target directory p :: way directory p) t u) :
    (∃ e, created directory p t = .error e ∧ created directory p u = .error e) ∨
    ∃ t' u', created directory p t = .ok t' ∧ created directory p u = .ok u' ∧ Abreast ls t u t' u' := by
  have hr := reachesDirectory_agree h
  rcases createDirectory_agree h with ⟨e, ht, hu⟩ | ⟨t', u', ht, hu⟩
  · cases hreach : u.reachesDirectory directory p with
    | false => exact Or.inl ⟨e, created_of_error ht (hr.trans hreach), created_of_error hu hreach⟩
    | true =>
      exact Or.inr ⟨t, u, by rw [created, ht, hr, hreach]; rfl, by rw [created, hu, hreach]; rfl, .refl ls t u⟩
  · exact Or.inr ⟨t', u', by rw [created, ht], by rw [created, hu],
      abreast_of_made ls (get?_of_createDirectory ht).2.2 (get?_of_createDirectory hu).2.2⟩

theorem created_of_place_error {e : Cause} (h : t.place directory p = .error e) : created directory p t = .error e := by
  refine created_of_error (createDirectory_of_place h) ?_
  rw [Bool.eq_false_iff]
  intro hr
  obtain ⟨place, hok⟩ := place_of_reachesDirectory hr
  rw [h] at hok
  cases hok

/-- If one of two trees has the directory already and the other one nothing there, all turns on the way. -/
theorem created_of_free_agree (ls : List Location) (hstart : start directory p ∈ way directory p)
    (hway : Agree (way directory p) t u) (hfree : t.Free (target directory p) ∧ u.Free (target directory p)) :
    (∃ e, created directory p t = .error e ∧ created directory p u = .error e) ∨
    ∃ t' u', created directory p t = .ok t' ∧ created directory p u = .ok u' ∧ Abreast ls t u t' u' := by
  have hplace := place_agree hway
  cases hp : u.place directory p with
  | error e => exact Or.inl ⟨e, created_of_place_error (hplace.trans hp), created_of_place_error hp⟩
  | ok place =>
    by_cases hfits : Fits p
    · have htway := way_of_place (hplace.trans hp)
      have huway := way_of_place hp
      obtain ⟨t', ht, htget⟩ := created_of_free hfits htway (htway _ hstart) hfree.1
      obtain ⟨u', hu, huget⟩ := created_of_free hfits huway (huway _ hstart) hfree.2
      exact Or.inr ⟨t', u', ht, hu, abreast_of_made ls htget huget⟩
    · obtain ⟨e, hcreate⟩ := createDirectory_of_not_fits directory hfits place
      have failed {v : FileTree} (hv : v.place directory p = .ok place) : created directory p v = .error e :=
        created_of_error (hcreate v hv) (not_reachesDirectory hfits)
      exact Or.inl ⟨e, failed (hplace.trans hp), failed hp⟩

theorem created_abreast (ls : List Location) (h : Creatable directory p t u) :
    (∃ e, created directory p t = .error e ∧ created directory p u = .error e) ∨
    ∃ t' u', created directory p t = .ok t' ∧ created directory p u = .ok u' ∧ Abreast ls t u t' u' := by
  obtain ⟨hagree, htarget⟩ := h
  obtain ⟨hstart, hway⟩ := agree_cons.mp hagree
  by_cases heq : t.get? (target directory p) = u.get? (target directory p)
  · exact created_of_agree ls (agree_cons.mpr ⟨heq, hway⟩)
  · have hmem := (List.mem_cons.mp (start_mem directory p)).resolve_left fun h => heq (h ▸ hstart)
    exact created_of_free_agree ls hmem hway (htarget.resolve_right heq)

theorem run_createFrom_of_found (h : t.createDirectory directory p ≠ .error (.system .notFound)) (above : List Path) :
    (createFrom directory (p :: above)).run t = (Change.make (created directory p)).run t := by
  cases hc : t.createDirectory directory p with
  | ok t' => rw [run_createFrom_of_ok hc, run_created_of_ok hc]
  | error e =>
    rw [run_createFrom_of_error hc fun he => h (he ▸ hc)]
    cases hr : t.reachesDirectory directory p with
    | false => exact (Change.run_make_of_error (created_of_error hc hr)).symm
    | true => exact (run_created_of_reaches hc hr).symm

/-- Something is missing on the way for both trees or for none. -/
theorem notFound_abreast (h : Agree (way directory p) t u) :
    t.createDirectory directory p = .error (.system .notFound) ↔
      u.createDirectory directory p = .error (.system .notFound) := by
  have notFound_iff (v : FileTree) : v.createDirectory directory p = .error (.system .notFound) ↔
      v.place directory p = .error (.system .notFound) := by
    cases hp : v.place directory p with
    | error e => rw [createDirectory_of_place hp]; simp
    | ok place =>
      cases place with
      | entry l n slashed =>
        rw [createDirectory_of_entry hp]
        split
        · simp
        · split <;> simp
      | _ => rw [createDirectory_of_not_entry hp (by simp)]; simp
  rw [notFound_iff, notFound_iff, place_agree h]

theorem together_createFrom (ls : List Location) (ps : List Path) {P : FileTree → FileTree → Prop}
    (hstable : Stable (Abreast ls) P) (hP : ∀ t u, P t u → ∀ p ∈ ps, Creatable directory p t u) :
    Together (Abreast ls) P P (createFrom directory ps) := by
  induction ps with
  | nil => exact Together.pure (Abreast.refl ls) ()
  | cons p above ih =>
    have hcreated : Together (Abreast ls) P P (Change.make (created directory p)) := by
      refine Change.together_make (Abreast.refl ls) fun t u htu => ?_
      rcases created_abreast ls (hP t u htu p List.mem_cons_self) with hfail | ⟨t', u', ht, hu, hstep⟩
      · exact Or.inl hfail
      · exact Or.inr ⟨t', u', ht, hu, hstep, hstable _ _ _ _ hstep htu⟩
    have hrest := (ih fun t u htu q hq => hP t u htu q (List.mem_cons_of_mem _ hq)).bind
      (Abreast.trans_all ls) fun _ => hcreated
    intro t u htu
    have hagree := (agree_cons.mp (hP t u htu p List.mem_cons_self).1).2
    by_cases hnone : t.createDirectory directory p = .error (.system .notFound)
    · rw [run_createFrom_of_notFound hnone, run_createFrom_of_notFound ((notFound_abreast hagree).mp hnone)]
      exact hrest t u htu
    · rw [run_createFrom_of_found hnone, run_createFrom_of_found fun h => hnone ((notFound_abreast hagree).mpr h)]
      exact hcreated t u htu

theorem abreast_of_yields {ε α : Type} {r : Except ε α} {made : List Location} {c : Change ε α} (ls : List Location)
    (ht : Yields r made c t) (hu : Yields r made c u) :
    (c.run t).1 = (c.run u).1 ∧ Abreast ls t u (c.run t).2 (c.run u).2 := by
  obtain ⟨t', ht, htmade, htkept⟩ := ht
  obtain ⟨u', hu, humade, hukept⟩ := hu
  rw [ht, hu]
  refine ⟨rfl, fun l => ?_⟩
  by_cases hl : l ∈ made
  · exact Or.inr ⟨(htmade l hl).trans (humade l hl).symm, fun _ => htmade l hl⟩
  · exact Or.inl ⟨htkept l hl, hukept l hl⟩

theorem createAll_abreast (ls : List Location) (h : Path.Tidy p)
    (hstart : t.get? (start directory p) = u.get? (start directory p))
    (hcase : (∀ l ∈ target directory p :: way directory p, t.Free l ∧ u.Free l) ∨ Creatable directory p t u) :
    ((createAll directory p).run t).1 = ((createAll directory p).run u).1 ∧
      Abreast ls t u ((createAll directory p).run t).2 ((createAll directory p).run u).2 := by
  rcases hcase with hfree | ⟨hagree, htarget⟩
  · obtain ⟨r, made, hyields⟩ := createAll_yields directory h (u.get? (start directory p))
    exact abreast_of_yields ls (hyields t hstart fun l hl => (hfree l hl).1) (hyields u rfl fun l hl => (hfree l hl).2)
  · rw [createAll]
    split
    · exact ⟨rfl, .refl ls t u⟩
    · have hall : ∀ q ∈ p :: Path.ancestors p, Creatable directory q t u := by
        refine List.forall_mem_cons.mpr ⟨⟨hagree, htarget⟩, fun q hq => ?_⟩
        obtain ⟨hne, hpre⟩ := Path.ancestors_isPrefix hq
        have hqstart : start directory q = start directory p := start_eq_of_isPrefix hpre hne
        have hsteps := (Path.ladder_ancestors h).isPrefix hq
        rw [Creatable, hqstart]
        refine ⟨hagree.mono (List.forall_mem_cons.mpr ⟨List.mem_cons_self, fun l hl =>
          List.mem_cons_of_mem _ (way_subset_of_isPrefix hqstart hsteps l hl)⟩), ?_⟩
        rcases List.mem_cons.mp (target_mem_of_isPrefix hqstart hsteps) with heq | hmem
        · rw [heq]
          exact htarget
        · exact Or.inr (hagree _ (List.mem_cons_of_mem _ hmem))
      have hstable : Stable (Abreast ls) fun t u => ∀ q ∈ p :: Path.ancestors p, Creatable directory q t u :=
        fun _ _ _ _ hstep h q hq => stable_creatable ls directory q _ _ _ _ hstep (h q hq)
      obtain ⟨hresult, hstep, -⟩ := together_createFrom ls (p :: Path.ancestors p) hstable (fun _ _ h => h) t u hall
      exact ⟨hresult, hstep⟩

/-! ### Removing directories -/

theorem removed_of_errors {e : Cause} (ht : t.removeDirectory directory p = .error e)
    (hu : u.removeDirectory directory p = .error e) :
    (∃ e, removed directory p t = .error e ∧ removed directory p u = .error e) ∨
      removed directory p t = .ok t ∧ removed directory p u = .ok u := by
  rw [removed_of_error ht, removed_of_error hu]
  split
  · exact Or.inr ⟨rfl, rfl⟩
  · exact Or.inl ⟨e, rfl, rfl⟩

/-- Where nothing stands below, a directory is removed alike from trees in which its path names the same place. -/
theorem removed_abreast (hplace : t.place directory p = u.place directory p)
    (ht : t.node? (target directory p) = some (.directory []))
    (hu : u.node? (target directory p) = some (.directory [])) :
    (∃ e, removed directory p t = .error e ∧ removed directory p u = .error e) ∨
    (removed directory p t = .ok t ∧ removed directory p u = .ok u) ∨
    removed directory p t = .ok (t.erase (target directory p)) ∧
      removed directory p u = .ok (u.erase (target directory p)) := by
  rw [← or_assoc]
  cases hp : u.place directory p with
  | error e =>
    exact Or.inl (removed_of_errors (by rw [removeDirectory, hplace, hp]; rfl) (by rw [removeDirectory, hp]; rfl))
  | ok place =>
    cases place with
    | entry l n slashed =>
      by_cases hn : n.length ≤ maxName
      · obtain ⟨-, -, -, -, -, hl, -⟩ := place_eq_entry.mp hp
        rw [← hl] at ht hu ⊢
        refine Or.inr ⟨?_, ?_⟩
        · rw [removed, removeDirectory_of_entry (hplace.trans hp) hn ht]
        · rw [removed, removeDirectory_of_entry hp hn hu]
      · have hlong := Nat.lt_of_not_le hn
        exact Or.inl (removed_of_errors (removeDirectory_of_long (hplace.trans hp) hlong)
          (removeDirectory_of_long hp hlong))
    | _ =>
      exact Or.inl (removed_of_errors (by rw [removeDirectory, hplace, hp]; rfl) (by rw [removeDirectory, hp]; rfl))

theorem emptied_abreast (hbelow : t.get? (target directory p) = u.get? (target directory p))
    (hway : Agree (way directory p) t u) :
    (∃ e, emptied directory p t = .error e ∧ emptied directory p u = .error e) ∨
    t.get? (target directory p) = some .directory ∧ u.get? (target directory p) = some .directory ∧
      emptied directory p t = .ok (t.clear (target directory p)) ∧
      emptied directory p u = .ok (u.clear (target directory p)) := by
  have hlocate := locate_agree (agree_cons.mpr ⟨hbelow, hway⟩)
  cases hl : u.locate directory p with
  | error e => exact Or.inl ⟨e, by rw [emptied, hlocate, hl]; rfl, by rw [emptied, hl]; rfl⟩
  | ok m =>
    obtain ⟨-, rfl, -⟩ := locate_eq_ok.mp hl
    have henter := enter_agree hbelow
    cases hdir : u.enter (target directory p) with
    | error e =>
      exact Or.inl
        ⟨e, by rw [emptied, hlocate, hl, ok_bind, henter, hdir]; rfl, by rw [emptied, hl, ok_bind, hdir]; rfl⟩
    | ok _ =>
      have hudir := enter_eq_ok.mp hdir
      have htdir := hbelow.trans hudir
      exact Or.inr ⟨htdir, hudir, emptied_of_directory (hlocate.trans hl) htdir, emptied_of_directory hl hudir⟩

theorem abreast_clear (hne : l ≠ []) (hls : ∀ m ∈ ls, ¬ l <+: m) (ht : t.get? l = some .directory)
    (hu : u.get? l = some .directory) : Abreast ls t u (t.clear l) (u.clear l) := by
  intro m
  rw [get?_clear hne ht, get?_clear hne hu]
  by_cases hpre : l <+: m
  · refine Or.inr ⟨?_, fun hmem => absurd hpre (hls m hmem)⟩
    rw [if_pos hpre, if_pos hpre]
  · have hself : m ≠ l := fun he => hpre (he ▸ List.prefix_rfl)
    rw [if_neg hself, if_neg hself, if_neg hpre, if_neg hpre]
    exact Or.inl ⟨rfl, rfl⟩

theorem abreast_erase (hne : l ≠ []) (hls : ∀ m ∈ ls, ¬ l <+: m) (t u : FileTree) :
    Abreast ls t u (t.erase l) (u.erase l) := by
  intro m
  rw [get?_erase hne, get?_erase hne]
  by_cases hpre : l <+: m
  · exact Or.inr ⟨by rw [if_pos hpre, if_pos hpre], fun hmem => absurd hpre (hls m hmem)⟩
  · exact Or.inl ⟨if_neg hpre, if_neg hpre⟩

/-- Where two trees agree at a directory and on its way, it is removed in step with all that it holds. -/
theorem removeAll_abreast (hends : EndsIn p up n) (hls : ∀ l ∈ ls, ¬ target directory p <+: l)
    (hbelow : t.get? (target directory p) = u.get? (target directory p)) (hway : Agree (way directory p) t u) :
    ((removeAll directory p).run t).1 = ((removeAll directory p).run u).1 ∧
      Abreast ls t u ((removeAll directory p).run t).2 ((removeAll directory p).run u).2 := by
  have hne := hends.target_ne_nil directory
  rw [removeAll_eq]
  rcases emptied_abreast hbelow hway with ⟨e, ht, hu⟩ | ⟨htdir, hudir, ht, hu⟩
  · rw [run_bind_of_error (Change.run_make_of_error ht), run_bind_of_error (Change.run_make_of_error hu)]
    exact ⟨rfl, .refl ls t u⟩
  · rw [run_bind_of_ok (Change.run_make_of_ok ht), run_bind_of_ok (Change.run_make_of_ok hu)]
    have hstep := abreast_clear hne hls htdir hudir
    rcases removed_abreast (place_agree (hstep.agree hway)) (node?_clear hne htdir) (node?_clear hne hudir) with
      ⟨e, ht, hu⟩ | ⟨ht, hu⟩ | ⟨ht, hu⟩
    · rw [Change.run_make_of_error ht, Change.run_make_of_error hu]
      exact ⟨rfl, hstep⟩
    · rw [Change.run_make_of_ok ht, Change.run_make_of_ok hu]
      exact ⟨rfl, hstep⟩
    · rw [Change.run_make_of_ok ht, Change.run_make_of_ok hu]
      exact ⟨rfl, hstep.trans (abreast_erase hne hls _ _)⟩

end ObjectTables.FileTree
