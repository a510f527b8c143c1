import ObjectTables.Proofs.FileTree.Access

/-! Creating directories. A directory is created unless something on the way is missing or it is there
    already (`createDirectory_of_free`). With those above it, its creation only adds directories on the way,
    even if it fails halfway (`keeps_createAll`), and it succeeds where the way is free (`run_createAll`). -/

namespace ObjectTables.FileTree

variable {t t' : FileTree} {directory l m : Location} {p : Path} {up : List Name} {n : Name}

/-- Every location. -/
def Everywhere (_ : Location) : Prop := True

/-! ### One directory -/

theorem createDirectory_of_entry {slashed : Bool} (h : t.place directory p = .ok (.entry l n slashed)) :
    t.createDirectory directory p = if maxName < n.length then .error (.system .nameTooLong)
      else if (t.get? (l ++ [n])).isSome then .error (.system .alreadyExists)
      else .ok (t.setDirectory (l ++ [n])) := by
  rw [createDirectory, h]
  show (if _ then _ else _) = _
  repeat' split
  all_goals rfl

/-- A new directory stands where its path leads, where nothing stood, and nothing else has changed. -/
theorem get?_of_createDirectory (h : t.createDirectory directory p = .ok t') :
    t.get? (target directory p) = none ∧ (∀ q ∈ way directory p, t.get? q = some .directory) ∧
    ∀ m, t'.get? m = if m = target directory p then some .directory else t.get? m := by
  obtain ⟨place, hplace, hrest⟩ := bind_eq_ok.mp h
  match place, hplace, hrest with
  | .entry l n slashed, hplace, _ =>
    rw [createDirectory_of_entry hplace] at h
    obtain ⟨up, hends, -, -, hway, hl, -⟩ := place_eq_entry.mp hplace
    rw [hl] at h
    split at h
    · cases h
    · split at h
      · cases h
      · next hnone =>
        obtain rfl := Except.ok.inj h
        rw [Bool.not_eq_true, Option.isSome_eq_false_iff, Option.isNone_iff_eq_none] at hnone
        exact ⟨hnone, hway, get?_setDirectory (hends.target_ne_nil directory) (hway _ hends.dropLast_target) hnone⟩

theorem kept_of_createDirectory (h : t.createDirectory directory p = .ok t') :
    Kept Everywhere [target directory p] t t' := by
  obtain ⟨hnone, -, hget⟩ := get?_of_createDirectory h
  intro l _
  rw [hget l]
  split
  · next hl => exact Or.inr ⟨hl ▸ List.mem_cons_self, hl ▸ hnone, rfl⟩
  · exact Or.inl rfl

theorem reachesDirectory_iff : t.reachesDirectory directory p = true ↔
    t.locate directory p = .ok (target directory p) ∧ t.get? (target directory p) = some .directory := by
  rw [reachesDirectory]
  cases h : t.locate directory p with
  | error e => exact ⟨fun h => (nomatch h), fun h => (nomatch h.1)⟩
  | ok l =>
    obtain ⟨-, rfl, -⟩ := locate_eq_ok.mp h
    simp [isDirectory]

theorem reachesDirectory_of (hfits : Fits p) (hway : ∀ q ∈ way directory p, t.get? q = some .directory)
    (h : t.get? (target directory p) = some .directory) : t.reachesDirectory directory p = true :=
  reachesDirectory_iff.mpr ⟨locate_eq_ok.mpr ⟨hfits, rfl, hway, fun _ => by rw [h]; rfl, fun _ => h⟩, h⟩

theorem createDirectory_of_not_entry {place : Place} (h : t.place directory p = .ok place)
    (hplace : ∀ l n slashed, place ≠ .entry l n slashed) :
    t.createDirectory directory p = .error (.system .alreadyExists) := by
  rw [createDirectory, h, ok_bind]
  cases place with
  | entry l n slashed => exact absurd rfl (hplace l n slashed)
  | _ => rfl

/-- Where the way and the target are free, a directory is created unless it is there already or something
    on the way is missing. -/
theorem createDirectory_of_free (hfits : Fits p) (hstart : t.get? (start directory p) = some .directory)
    (hfree : ∀ q ∈ target directory p :: way directory p, t.Free q) :
    (∃ t', t.createDirectory directory p = .ok t') ∨
    (t.createDirectory directory p = .error (.system .alreadyExists) ∧ t.reachesDirectory directory p = true) ∨
    t.createDirectory directory p = .error (.system .notFound) ∧
      ¬ ∀ q ∈ way directory p, t.get? q = some .directory := by
  rcases List.eq_nil_or_concat p.steps with hnil | ⟨up, n, hsteps⟩
  · -- a path without steps leads to the root
    have hplace : t.place directory p = .ok .root := by
      rw [place, hfits.checkPath, hnil]
      rfl
    refine Or.inr (Or.inl ⟨createDirectory_of_not_entry hplace (by simp), reachesDirectory_of hfits ?_ ?_⟩)
    · rw [way, hnil]
      simp
    · rw [target, hnil]
      exact hstart
  · rw [List.concat_eq_append] at hsteps
    obtain ⟨htarget, hway⟩ := List.forall_mem_cons.mp hfree
    rcases place_of_free hfits hsteps hway with ⟨hplace, hdirs⟩ | hplace
    · -- a last step that stays or goes up leads to a directory, so only a name can be new
      have reaches (hn : n = Path.here ∨ n = Path.above) : t.reachesDirectory directory p = true :=
        reachesDirectory_of hfits hdirs (get?_target_of_stay hdirs hsteps hn)
      rw [placeOf] at hplace
      split at hplace
      · next hn => exact Or.inr (Or.inl ⟨createDirectory_of_not_entry hplace (by simp), reaches (Or.inl hn)⟩)
      · next hhere =>
        split at hplace
        · next hn => exact Or.inr (Or.inl ⟨createDirectory_of_not_entry hplace (by simp), reaches (Or.inr hn)⟩)
        · next habove =>
          have hends : EndsIn p up n := ⟨hsteps, hhere, habove⟩
          have hn := (hfits.of_endsIn hends).2
          rw [createDirectory_of_entry hplace, if_neg (Nat.not_lt.mpr hn), ← hends.target_eq]
          rcases htarget with hnone | hdir
          · exact Or.inl ⟨_, if_neg (by simp [hnone])⟩
          · exact Or.inr (Or.inl ⟨if_pos (by simp [hdir]), reachesDirectory_of hfits hdirs hdir⟩)
    · refine Or.inr (Or.inr ⟨?_, fun hdirs => ?_⟩)
      · rw [createDirectory, hplace]
        rfl
      · have hnames : ∀ s ∈ up, s.length ≤ maxName := fun s hs =>
          hfits.names s (by rw [hsteps]; exact List.mem_append_left _ hs)
        rw [(place_eq_ok hsteps).mpr ⟨hfits.checkPath, hnames, hdirs, rfl⟩] at hplace
        cases hplace

/-! ### A directory with those above it -/

/-- The creation of a directory that is fine with one that is there. -/
def created (directory : Location) (p : Path) (t : FileTree) : Except Cause FileTree :=
  match t.createDirectory directory p with
  | .ok t' => .ok t'
  | .error e => if t.reachesDirectory directory p then .ok t else .error e

theorem run_createFrom_of_ok (h : t.createDirectory directory p = .ok t') (above : List Path) :
    (createFrom directory (p :: above)).run t = (.ok (), t') := by
  rw [createFrom, run_bind_of_ok (Change.run_get t), h]
  rfl

theorem run_createFrom_of_notFound (h : t.createDirectory directory p = .error (.system .notFound))
    (above : List Path) : (createFrom directory (p :: above)).run t =
      (createFrom directory above >>= fun _ => Change.make (created directory p)).run t := by
  rw [createFrom, run_bind_of_ok (Change.run_get t), h]
  rfl

theorem run_createFrom_of_error {e : Cause} (h : t.createDirectory directory p = .error e)
    (he : e ≠ .system .notFound) (above : List Path) : (createFrom directory (p :: above)).run t =
      (if t.reachesDirectory directory p then .ok () else .error e, t) := by
  rw [createFrom, run_bind_of_ok (Change.run_get t), h]
  split
  · next heq => cases heq
  · next heq => exact absurd (Except.error.inj heq) he
  · next heq =>
    obtain rfl := Except.error.inj heq
    show (if t.reachesDirectory directory p = true then (pure () : Change Cause Unit) else throw e).run t = _
    split <;> rfl

theorem run_created_of_ok (h : t.createDirectory directory p = .ok t') :
    (Change.make (created directory p)).run t = (.ok (), t') :=
  Change.run_make_of_ok (by rw [created, h])

theorem run_created_of_reaches {e : Cause} (h : t.createDirectory directory p = .error e)
    (hr : t.reachesDirectory directory p = true) : (Change.make (created directory p)).run t = (.ok (), t) :=
  Change.run_make_of_ok (by rw [created, h, hr]; rfl)

theorem keeps_created {ls : List Location} (h : target directory p ∈ ls) :
    Keeps (Kept Everywhere ls) (Change.make (created directory p)) := by
  refine Change.keeps_make (Kept.refl Everywhere ls) fun t t' ht => ?_
  rw [created] at ht
  split at ht
  · next hc =>
    obtain rfl := Except.ok.inj ht
    exact (kept_of_createDirectory hc).mono (fun _ h => h) fun l hl => List.mem_singleton.mp hl ▸ h
  · split at ht
    · obtain rfl := Except.ok.inj ht
      exact Kept.refl Everywhere ls t
    · cases ht

theorem keeps_createFrom {ls : List Location} {ps : List Path} (h : ∀ p ∈ ps, target directory p ∈ ls) :
    Keeps (Kept Everywhere ls) (createFrom directory ps) := by
  induction ps with
  | nil => exact Keeps.pure (Kept.refl Everywhere ls) ()
  | cons p above ih =>
    obtain ⟨hp, habove⟩ := List.forall_mem_cons.mp h
    intro t
    cases hc : t.createDirectory directory p with
    | ok t' =>
      rw [run_createFrom_of_ok hc]
      exact (kept_of_createDirectory hc).mono (fun _ h => h) fun l hl => List.mem_singleton.mp hl ▸ hp
    | error e =>
      by_cases he : e = .system .notFound
      · subst he
        rw [run_createFrom_of_notFound hc]
        exact (ih habove).bind (fun _ _ _ h h' => h.trans h') (fun _ => keeps_created hp) t
      · rw [run_createFrom_of_error hc he]
        exact Kept.refl Everywhere ls t

/-- What leads up to a path is passed on the way there, or is where the path leads. -/
theorem target_mem_of_isPrefix {q : Path} (hstart : start directory q = start directory p)
    (h : q.steps <+: p.steps) : target directory q ∈ target directory p :: way directory p := by
  obtain ⟨r, hr⟩ := h
  rw [target, target, way, hstart, ← hr, leads_append, passed_append]
  cases r with
  | nil => exact List.mem_cons_self
  | cons s r => exact List.mem_cons_of_mem _ (List.mem_append_right _ List.mem_cons_self)

theorem way_subset_of_isPrefix {q : Path} (hstart : start directory q = start directory p)
    (h : q.steps <+: p.steps) : ∀ l ∈ way directory q, l ∈ way directory p := by
  obtain ⟨r, hr⟩ := h
  intro l hl
  rw [way, ← hr, passed_append, ← hstart]
  exact List.mem_append_left _ hl

theorem mem_passed_rung {above steps : List Name} (h : Path.Rung above steps) {l : Location} :
    m ∈ passed l steps ↔ m ∈ leads l above :: passed l above := by
  obtain ⟨stays, n, rfl, hstays⟩ := h
  rw [List.append_assoc, passed_append, passed_append, leads_stays hstays, List.mem_append, List.mem_append,
    List.mem_cons, or_comm]
  refine or_congr_left ⟨fun hm => ?_, fun hm => Or.inr (List.mem_singleton.mpr hm)⟩
  exact hm.elim (mem_passed_stays hstays) List.mem_singleton.mp

theorem way_of_ladder (h : Path.Ladder p.steps []) (hl : l ∈ way directory p) : l = start directory p := by
  rcases h with h | h
  · exact mem_passed_stays h hl
  · simpa using (mem_passed_rung h).mp hl

/-- The paths that lead up from `p`, with what their creation needs. -/
structure Climb (directory : Location) (p : Path) (up : List Path) : Prop where
  ladder : Path.Ladder p.steps up
  start : ∀ q ∈ up, start directory q = start directory p
  fits : ∀ q ∈ up, Fits q

theorem Climb.tail {q : Path} {above : List Path} (h : Climb directory p (q :: above)) : Climb directory q above where
  ladder := h.ladder.2
  start r hr := by rw [h.start r (List.mem_cons_of_mem _ hr), h.start q List.mem_cons_self]
  fits r hr := h.fits r (List.mem_cons_of_mem _ hr)

theorem climb_ancestors (h : Path.Tidy p) (hfits : Fits p) : Climb directory p (Path.ancestors p) where
  ladder := Path.ladder_ancestors h
  start _ hq := start_eq_of_isPrefix (Path.ancestors_isPrefix hq).2 (Path.ancestors_isPrefix hq).1
  fits _ hq := hfits.of_isPrefix (Path.ancestors_isPrefix hq).2 (Path.ancestors_isPrefix hq).1
    ((Path.ladder_ancestors h).isPrefix hq)

theorem Climb.target_mem {above : List Path} (h : Climb directory p above) {q : Path} (hq : q ∈ above) :
    target directory q ∈ target directory p :: way directory p :=
  target_mem_of_isPrefix (h.start q hq) (h.ladder.isPrefix hq)

theorem get?_of_reachesDirectory (h : t.reachesDirectory directory p = true) :
    ∀ q ∈ target directory p :: way directory p, t.get? q = some .directory := by
  obtain ⟨hlocate, htarget⟩ := reachesDirectory_iff.mp h
  obtain ⟨-, -, hway, -⟩ := locate_eq_ok.mp hlocate
  exact List.forall_mem_cons.mpr ⟨htarget, hway⟩

theorem locate_of_reaches (h : t.reaches directory p = true) : t.locate directory p = .ok (target directory p) := by
  rw [reaches] at h
  cases hl : t.locate directory p with
  | error e =>
    rw [hl] at h
    cases h
  | ok l => rw [(locate_eq_ok.mp hl).2.1]

theorem get?_of_reaches (h : t.reaches directory p = true) (hstart : t.get? (start directory p) = some .directory)
    (hfree : t.Free (target directory p)) :
    ∀ q ∈ target directory p :: way directory p, t.get? q = some .directory := by
  obtain ⟨-, -, hway, hsome, -⟩ := locate_eq_ok.mp (locate_of_reaches h)
  refine List.forall_mem_cons.mpr ⟨?_, hway⟩
  rcases hfree with hnone | hdir
  · by_cases hsteps : p.steps = []
    · rw [target, hsteps]
      exact hstart
    · have hsome := hsome hsteps
      rw [hnone] at hsome
      exact absurd hsome (by simp)
  · exact hdir

theorem get?_of_createDirectory_ok (h : t.createDirectory directory p = .ok t') :
    ∀ q ∈ target directory p :: way directory p, t'.get? q = some .directory := by
  obtain ⟨-, hway, hget⟩ := get?_of_createDirectory h
  refine List.forall_mem_cons.mpr ⟨by rw [hget, if_pos rfl], fun q hq => ?_⟩
  exact (kept_of_createDirectory h).get? trivial (hway q hq)

theorem run_createFrom {above : List Path} (hfits : Fits p) (hclimb : Climb directory p above)
    (hstart : t.get? (start directory p) = some .directory)
    (hfree : ∀ q ∈ target directory p :: way directory p, t.Free q) :
    ∃ t', (createFrom directory (p :: above)).run t = (.ok (), t') ∧
      ∀ q ∈ target directory p :: way directory p, t'.get? q = some .directory := by
  induction above generalizing p t with
  | nil =>
    have hway : ∀ q ∈ way directory p, t.get? q = some .directory := by
      intro q hq
      rw [way_of_ladder hclimb.ladder hq]
      exact hstart
    rcases createDirectory_of_free hfits hstart hfree with ⟨t', h⟩ | ⟨h, hr⟩ | ⟨-, h⟩
    · exact ⟨t', run_createFrom_of_ok h _, get?_of_createDirectory_ok h⟩
    · exact ⟨t, by rw [run_createFrom_of_error h (by simp), hr]; rfl, get?_of_reachesDirectory hr⟩
    · exact absurd hway h
  | cons q above ih =>
    rcases createDirectory_of_free hfits hstart hfree with ⟨t', h⟩ | ⟨h, hr⟩ | ⟨h, -⟩
    · exact ⟨t', run_createFrom_of_ok h _, get?_of_createDirectory_ok h⟩
    · exact ⟨t, by rw [run_createFrom_of_error h (by simp), hr]; rfl, get?_of_reachesDirectory hr⟩
    · -- something on the way is missing: it is there once the directories above are
      have hq : start directory q = start directory p := hclimb.start q List.mem_cons_self
      have hpre : q.steps <+: p.steps := hclimb.ladder.1.isPrefix
      have hsub : ∀ l ∈ target directory q :: way directory q, l ∈ target directory p :: way directory p :=
        List.forall_mem_cons.mpr ⟨target_mem_of_isPrefix hq hpre,
          fun l hl => List.mem_cons_of_mem _ (way_subset_of_isPrefix hq hpre l hl)⟩
      obtain ⟨t₁, hrun, hdirs⟩ := ih (hclimb.fits q List.mem_cons_self) hclimb.tail (by rw [hq]; exact hstart)
        fun l hl => hfree l (hsub l hl)
      have hkept : Kept Everywhere (target directory p :: way directory p) t t₁ :=
        (keeps_createFrom fun _ hq => hclimb.target_mem hq).of_run hrun
      have hway : ∀ l ∈ way directory p, t₁.get? l = some .directory := fun l hl =>
        hdirs l (by rw [target, way, hq]; exact (mem_passed_rung hclimb.ladder.1).mp hl)
      rw [run_createFrom_of_notFound h, run_bind_of_ok hrun]
      have hfree : ∀ l ∈ target directory p :: way directory p, t₁.Free l := fun l hl =>
        hkept.free trivial (hfree l hl)
      rcases createDirectory_of_free hfits (hkept.get? trivial hstart) hfree with ⟨t', h⟩ | ⟨h, hr⟩ | ⟨-, h⟩
      · exact ⟨t', run_created_of_ok h, get?_of_createDirectory_ok h⟩
      · exact ⟨t₁, run_created_of_reaches h hr, get?_of_reachesDirectory hr⟩
      · exact absurd hway h

theorem EndsIn.tidy (h : EndsIn p up n) : Path.Tidy p := by
  refine Or.inl ?_
  rw [h.steps, List.getLast?_concat]
  exact fun hn => h.name.1 (Option.some.inj hn)

theorem target_mem_of_ancestor {q : Path} (h : Path.Tidy p) (hq : q ∈ Path.ancestors p) :
    target directory q ∈ target directory p :: way directory p :=
  target_mem_of_isPrefix (start_eq_of_isPrefix (Path.ancestors_isPrefix hq).2 (Path.ancestors_isPrefix hq).1)
    ((Path.ladder_ancestors h).isPrefix hq)

/-- Whether the creation of a directory succeeds or not, it only adds directories on the way there. -/
theorem keeps_createAll (directory : Location) (h : Path.Tidy p) :
    Keeps (Kept Everywhere (target directory p :: way directory p)) (createAll directory p) := by
  rw [createAll]
  split
  · exact Keeps.pure (Kept.refl _ _) ()
  · exact keeps_createFrom (List.forall_mem_cons.mpr ⟨List.mem_cons_self, fun _ => target_mem_of_ancestor h⟩)

/-- Where the way is free, a directory can be created together with those above it. -/
theorem run_createAll (h : Path.Tidy p) (hfits : Fits p) (hstart : t.get? (start directory p) = some .directory)
    (hfree : ∀ q ∈ target directory p :: way directory p, t.Free q) :
    ∃ t', (createAll directory p).run t = (.ok (), t') ∧
      ∀ q ∈ target directory p :: way directory p, t'.get? q = some .directory := by
  rw [createAll, if_neg (by simpa using hfits.nonempty)]
  exact run_createFrom hfits (climb_ancestors h hfits) hstart hfree

theorem fits_of_createDirectory (h : t.createDirectory directory p = .ok t') : Fits p := by
  obtain ⟨place, hplace, hrest⟩ := bind_eq_ok.mp h
  match place, hplace, hrest with
  | .entry l n slashed, hplace, _ =>
    rw [createDirectory_of_entry hplace] at h
    obtain ⟨up, hends, hcheck, hup, -⟩ := place_eq_entry.mp hplace
    split at h
    · cases h
    · next hn => exact fits_of_names hends.steps hcheck hup (Nat.le_of_not_lt hn)

theorem reachesDirectory_of_createDirectory (h : t.createDirectory directory p = .ok t') :
    t'.reachesDirectory directory p = true := by
  obtain ⟨htarget, hway⟩ := List.forall_mem_cons.mp (get?_of_createDirectory_ok h)
  exact reachesDirectory_of (fits_of_createDirectory h) hway htarget

theorem reachesDirectory_of_createAll (hne : p ≠ []) (h : (createAll directory p).run t = (.ok (), t')) :
    t'.reachesDirectory directory p = true := by
  rw [createAll, if_neg (by simpa using hne)] at h
  cases hc : t.createDirectory directory p with
  | ok t₁ =>
    rw [run_createFrom_of_ok hc] at h
    cases h
    exact reachesDirectory_of_createDirectory hc
  | error e =>
    by_cases he : e = .system .notFound
    · subst he
      rw [run_createFrom_of_notFound hc] at h
      -- what the directories above have come to does not matter
      obtain ⟨_, t₁, -, h⟩ := run_bind_eq_ok h
      cases hd : created directory p t₁ with
      | error e =>
        rw [Change.run_make_of_error hd] at h
        cases h
      | ok t₂ =>
        rw [Change.run_make_of_ok hd] at h
        cases h
        rw [created] at hd
        split at hd
        · next hc =>
          cases hd
          exact reachesDirectory_of_createDirectory hc
        · split at hd
          · next hr =>
            cases hd
            exact hr
          · cases hd
    · rw [run_createFrom_of_error hc he] at h
      split at h
      · next hr =>
        cases h
        exact hr
      · cases h

end ObjectTables.FileTree
