import ObjectTables.Proofs.FileTree.Agreement
import ObjectTables.Proofs.Sites

/-! Creations whose outcome is told without the tree. Where the way of a path is free, the creation of a directory
    with those above it comes to the same and adds directories at the same locations, whatever is there already
    (`createAll_yields`): all of them, or those before the first name that is too long. -/

namespace ObjectTables.FileTree

variable {t t' : FileTree} {directory l m : Location} {p : Path} {pre post : List Name} {n : Name} {ε α : Type}

/-- A change comes to `r` and leaves directories at the locations `ls`, and nothing else. -/
def Yields (r : Except ε α) (ls : List Location) (c : Change ε α) (t : FileTree) : Prop :=
  ∃ t', c.run t = (r, t') ∧ (∀ l ∈ ls, t'.get? l = some .directory) ∧ ∀ l, l ∉ ls → t'.get? l = t.get? l

theorem Yields.of_unchanged {r : Except ε α} {c : Change ε α} (hrun : c.run t = (r, t)) : Yields r [] c t :=
  ⟨t, hrun, fun _ hl => absurd hl List.not_mem_nil, fun _ _ => rfl⟩

theorem Yields.of_kept {r : Except ε α} {ls : List Location} {c : Change ε α} (hrun : c.run t = (r, t'))
    (hkept : Kept Everywhere ls t t') (hdirs : ∀ l ∈ ls, t'.get? l = some .directory) : Yields r ls c t :=
  ⟨t', hrun, hdirs, fun l hl => (hkept l trivial).resolve_right fun hmem => hl hmem.1⟩

/-! ### Paths that cannot be used -/

theorem place_of_check {e : Cause} (h : checkPath p = .error e) : t.place directory p = .error e := by
  rw [place, h]
  rfl

theorem createDirectory_of_place {e : Cause} (h : t.place directory p = .error e) :
    t.createDirectory directory p = .error e := by
  rw [createDirectory, h]
  rfl

theorem not_reachesDirectory (h : ¬Fits p) : t.reachesDirectory directory p = false := by
  rw [Bool.eq_false_iff]
  intro hr
  exact h (locate_eq_ok.mp (reachesDirectory_iff.mp hr).1).1

theorem check_ne_notFound {e : Cause} (hne : p ≠ []) (h : checkPath p = .error e) : e ≠ .system .notFound := by
  rintro rfl
  rw [checkPath] at h
  by_cases hnul : 0 ∈ p
  · rw [if_pos (by simpa using hnul)] at h
    cases h
  · rw [if_neg (by simpa using hnul), if_neg (by simpa using hne)] at h
    by_cases hlen : maxPath < p.length
    · rw [if_pos hlen] at h
      cases h
    · rw [if_neg hlen] at h
      cases h

theorem createFrom_of_check {e : Cause} (hne : p ≠ []) (h : checkPath p = .error e) (above : List Path) (t : FileTree) :
    (createFrom directory (p :: above)).run t = (.error e, t) := by
  have hfits : ¬Fits p := fun hfits => by
    rw [hfits.checkPath] at h
    cases h
  rw [run_createFrom_of_error (createDirectory_of_place (place_of_check h)) (check_ne_notFound hne h),
    not_reachesDirectory hfits]
  rfl

/-! ### Paths that start nowhere -/

theorem start_mem (directory : Location) (p : Path) : start directory p ∈ target directory p :: way directory p := by
  rw [target, way]
  cases p.steps with
  | nil => exact List.mem_cons_self
  | cons s steps => exact List.mem_cons_of_mem _ List.mem_cons_self

theorem createDirectory_of_no_start (directory : Location) (p : Path) :
    ∃ e, ∀ t : FileTree, t.get? (start directory p) = none → t.createDirectory directory p = .error e := by
  cases hcheck : checkPath p with
  | error e => exact ⟨e, fun t _ => createDirectory_of_place (place_of_check hcheck)⟩
  | ok _ =>
    rcases List.eq_nil_or_concat p.steps with hnil | ⟨up, n, hsteps⟩
    · refine ⟨.system .alreadyExists, fun t _ => ?_⟩
      have hroot : t.place directory p = .ok .root := by
        rw [place, hcheck, hnil]
        rfl
      exact createDirectory_of_not_entry hroot (by simp)
    · rw [List.concat_eq_append] at hsteps
      refine ⟨.system .notFound, fun t hstart => createDirectory_of_place ?_⟩
      rw [place_eq t directory hcheck hsteps]
      cases up with
      | nil =>
        show t.enter (start directory p) >>= _ = _
        rw [enter_of_none hstart]
        rfl
      | cons s up =>
        rw [walk_cons_of_error (step_of_none hstart s)]
        rfl

theorem createFrom_of_no_start {ps : List Path} (h : ∀ q ∈ ps, start directory q = l) :
    ∃ r, ∀ t : FileTree, t.get? l = none → (createFrom directory ps).run t = (r, t) := by
  induction ps with
  | nil => exact ⟨.ok (), fun _ _ => rfl⟩
  | cons p above ih =>
    obtain ⟨hp, habove⟩ := List.forall_mem_cons.mp h
    obtain ⟨e, hcreate⟩ := createDirectory_of_no_start directory p
    have unreached {t : FileTree} (ht : t.get? l = none) : t.reachesDirectory directory p = false := by
      rw [Bool.eq_false_iff]
      intro hr
      have hstart := get?_start_of_reachesDirectory hr
      rw [hp, ht] at hstart
      cases hstart
    rw [hp] at hcreate
    by_cases he : e = .system .notFound
    · subst he
      obtain ⟨r, hr⟩ := ih habove
      cases r with
      | error e =>
        exact ⟨.error e, fun t ht => by rw [run_createFrom_of_notFound (hcreate t ht), run_bind_of_error (hr t ht)]⟩
      | ok _ =>
        refine ⟨.error (.system .notFound), fun t ht => ?_⟩
        rw [run_createFrom_of_notFound (hcreate t ht), run_bind_of_ok (hr t ht)]
        exact Change.run_make_of_error (by rw [created, hcreate t ht, unreached ht]; rfl)
    · exact ⟨.error e, fun t ht => by rw [run_createFrom_of_error (hcreate t ht) he, unreached ht]; rfl⟩

/-! ### Paths with a name that is too long -/

/-- The first name of a path that is too long, after the steps `pre`. -/
structure Overlong (p : Path) (pre : List Name) (n : Name) (post : List Name) : Prop where
  steps : p.steps = pre ++ n :: post
  names : ∀ s ∈ pre, s.length ≤ maxName
  long : maxName < n.length

theorem exists_overlong (hcheck : checkPath p = .ok ()) (h : ¬Fits p) : ∃ pre n post, Overlong p pre n post := by
  obtain ⟨hnul, hne, hshort⟩ := checkPath_eq_ok.mp hcheck
  cases hfind : p.steps.find? fun s => decide (maxName < s.length) with
  | none =>
    have hnames : ∀ s ∈ p.steps, s.length ≤ maxName := fun s hs => by simpa using List.find?_eq_none.mp hfind s hs
    exact absurd ⟨hnul, hne, hshort, hnames⟩ h
  | some n =>
    obtain ⟨hn, pre, post, hsteps, hpre⟩ := List.find?_eq_some_iff_append.mp hfind
    exact ⟨pre, n, post, hsteps, fun s hs => by simpa using hpre s hs, by simpa using hn⟩

namespace Overlong

variable {q : Path} {stays : List Name}

theorem name (h : Overlong p pre n post) : n ≠ Path.here ∧ n ≠ Path.above := by
  refine ⟨fun he => ?_, fun he => ?_⟩
  · exact absurd h.long (Nat.not_lt.mpr (length_stay_le (Or.inl he)))
  · exact absurd h.long (Nat.not_lt.mpr (length_stay_le (Or.inr he)))

theorem not_fits (h : Overlong p pre n post) : ¬Fits p := fun hfits =>
  absurd h.long (Nat.not_lt.mpr (hfits.names n (h.steps ▸ List.mem_append_right _ List.mem_cons_self)))

/-- The directory above holds the name already, or it is the one that has the name in it. -/
theorem above (h : Overlong p pre n post) (hrung : Path.Rung q.steps p.steps) :
    (∃ post', Overlong q pre n post') ∨ Path.Rung q.steps (pre ++ [n]) ∧ ∀ s ∈ q.steps, s.length ≤ maxName := by
  obtain ⟨stays, m, hsteps, hstays⟩ := hrung
  have hn : n ∉ stays := fun hmem => h.name.1 (hstays n hmem)
  rcases List.eq_nil_or_concat post with rfl | ⟨post', m', rfl⟩
  · obtain ⟨hpre, hm⟩ := List.append_inj' (h.steps.symm.trans hsteps) rfl
    refine Or.inr ⟨⟨stays, n, by rw [hpre], hstays⟩, fun s hs => h.names s ?_⟩
    rw [hpre]
    exact List.mem_append_left _ hs
  · have hsplit : pre ++ n :: post' ++ [m'] = q.steps ++ stays ++ [m] := by
      rw [← hsteps, h.steps, List.concat_eq_append, List.append_assoc, List.cons_append]
    obtain ⟨hsplit, -⟩ := List.append_inj' hsplit rfl
    rcases List.append_eq_append_iff.mp hsplit with ⟨more, hq, hmore⟩ | ⟨more, hpre, hmore⟩
    · cases more with
      | nil => exact absurd (List.nil_append stays ▸ hmore ▸ List.mem_cons_self) hn
      | cons n' more =>
        obtain ⟨rfl, -⟩ := List.cons.inj hmore
        exact Or.inl ⟨more, hq, h.names, h.long⟩
    · rw [hmore] at hn
      exact absurd (List.mem_append_right _ List.mem_cons_self) hn

theorem passed_subset (h : Overlong p pre n post) (hm : m ∈ passed (start directory p) (pre ++ [n])) :
    m ∈ way directory p := by
  rw [way, h.steps, ← List.singleton_append, ← List.append_assoc, passed_append]
  exact List.mem_append_left _ hm

end Overlong

theorem walk_append (t : FileTree) (l : Location) (a b : List Name) :
    t.walk l (a ++ b) = t.walk l a >>= (t.walk · b) := List.foldlM_append

theorem step_of_long (hl : t.get? l = some .directory) (hname : n ≠ Path.here ∧ n ≠ Path.above)
    (hn : maxName < n.length) : t.step l n = .error (.system .nameTooLong) := by
  rw [step_of_directory hl, if_neg hname.1, if_neg hname.2, if_pos hn]

/-- Where the way is free, the steps before a name that is too long lead to a directory, or something is missing. -/
theorem walk_of_overlong (h : Overlong p pre n post)
    (hfree : ∀ q ∈ passed (start directory p) (pre ++ [n]), t.Free q) :
    (t.walk (start directory p) pre = .ok (leads (start directory p) pre) ∧
      t.get? (leads (start directory p) pre) = some .directory ∧
      ∀ q ∈ passed (start directory p) (pre ++ [n]), t.get? q = some .directory) ∨
    (t.walk (start directory p) pre = .error (.system .notFound) ∨
      t.walk (start directory p) pre = .ok (leads (start directory p) pre) ∧
        t.get? (leads (start directory p) pre) = none) ∧
      ¬ ∀ q ∈ passed (start directory p) (pre ++ [n]), t.get? q = some .directory := by
  have split {P : Location → Prop} : (∀ q ∈ passed (start directory p) (pre ++ [n]), P q) ↔
      (∀ q ∈ passed (start directory p) pre, P q) ∧ P (leads (start directory p) pre) := by
    rw [passed_append, List.forall_mem_append]
    exact and_congr_right fun _ => List.forall_mem_singleton
  rw [split] at hfree ⊢
  rcases walk_of_free hfree.1 h.names with hwalk | hwalk
  · rcases hfree.2 with hnone | hdir
    · refine Or.inr ⟨Or.inr ⟨hwalk, hnone⟩, fun hdirs => ?_⟩
      rw [hdirs.2] at hnone
      cases hnone
    · exact Or.inl ⟨hwalk, hdir, (walk_eq_ok.mp hwalk).2.1, hdir⟩
  · refine Or.inr ⟨Or.inl hwalk, fun hdirs => ?_⟩
    rw [walk_eq_ok.mpr ⟨rfl, hdirs.1, h.names, fun _ => by rw [hdirs.2]; rfl⟩] at hwalk
    cases hwalk

/-- No directory is created past a name that is too long; what is missing before the name is missed first. -/
theorem createDirectory_of_overlong (h : Overlong p pre n post) (hcheck : checkPath p = .ok ())
    (hfree : ∀ q ∈ passed (start directory p) (pre ++ [n]), t.Free q) :
    (t.createDirectory directory p = .error (.system .nameTooLong) ∧
      ∀ q ∈ passed (start directory p) (pre ++ [n]), t.get? q = some .directory) ∨
    t.createDirectory directory p = .error (.system .notFound) ∧
      ¬ ∀ q ∈ passed (start directory p) (pre ++ [n]), t.get? q = some .directory := by
  rcases List.eq_nil_or_concat post with rfl | ⟨post', last, rfl⟩
  · have hplace := place_eq t directory hcheck h.steps
    rcases walk_of_overlong h hfree with ⟨hwalk, hdir, hdirs⟩ | ⟨hwalk | ⟨hwalk, hnone⟩, hdirs⟩
    · rw [hwalk, ok_bind, enter_of_directory hdir, ok_bind, EndsIn.placeOf_eq ⟨h.steps, h.name⟩] at hplace
      exact Or.inl ⟨by rw [createDirectory_of_entry hplace, if_pos h.long], hdirs⟩
    · rw [hwalk] at hplace
      exact Or.inr ⟨createDirectory_of_place hplace, hdirs⟩
    · rw [hwalk, ok_bind, enter_of_none hnone] at hplace
      exact Or.inr ⟨createDirectory_of_place hplace, hdirs⟩
  · have hsteps : p.steps = pre ++ n :: post' ++ [last] := by
      rw [h.steps, List.concat_eq_append, List.append_assoc, List.cons_append]
    have hplace := place_eq t directory hcheck hsteps
    rw [walk_append] at hplace
    rcases walk_of_overlong h hfree with ⟨hwalk, hdir, hdirs⟩ | ⟨hwalk | ⟨hwalk, hnone⟩, hdirs⟩
    · rw [hwalk, ok_bind, walk_cons_of_error (step_of_long hdir h.name h.long)] at hplace
      exact Or.inl ⟨createDirectory_of_place hplace, hdirs⟩
    · rw [hwalk] at hplace
      exact Or.inr ⟨createDirectory_of_place hplace, hdirs⟩
    · rw [hwalk, ok_bind, walk_cons_of_error (step_of_none hnone n)] at hplace
      exact Or.inr ⟨createDirectory_of_place hplace, hdirs⟩

/-- The paths that lead up from `p`, whether their names are too long or not. -/
structure Ascent (directory : Location) (p : Path) (up : List Path) : Prop where
  ladder : Path.Ladder p.steps up
  start : ∀ q ∈ up, start directory q = start directory p
  check : ∀ q ∈ up, checkPath q = .ok ()

theorem Ascent.tail {q : Path} {above : List Path} (h : Ascent directory p (q :: above)) :
    Ascent directory q above where
  ladder := h.ladder.2
  start r hr := by rw [h.start r (List.mem_cons_of_mem _ hr), h.start q List.mem_cons_self]
  check r hr := h.check r (List.mem_cons_of_mem _ hr)

theorem fits_of_check (hcheck : checkPath p = .ok ()) (hnames : ∀ s ∈ p.steps, s.length ≤ maxName) : Fits p :=
  ⟨(checkPath_eq_ok.mp hcheck).1, (checkPath_eq_ok.mp hcheck).2.1, (checkPath_eq_ok.mp hcheck).2.2, hnames⟩

theorem Ascent.climb {above : List Path} (h : Ascent directory p above) (hnames : ∀ s ∈ p.steps, s.length ≤ maxName) :
    Climb directory p above where
  ladder := h.ladder
  start := h.start
  fits q hq := fits_of_check (h.check q hq) fun s hs => hnames s ((h.ladder.isPrefix hq).subset hs)

theorem ascent_ancestors (h : Path.Tidy p) (hcheck : checkPath p = .ok ()) :
    Ascent directory p (Path.ancestors p) where
  ladder := Path.ladder_ancestors h
  start _ hq := start_eq_of_isPrefix (Path.ancestors_isPrefix hq).2 (Path.ancestors_isPrefix hq).1
  check q hq := by
    obtain ⟨hne, hpre⟩ := Path.ancestors_isPrefix hq
    obtain ⟨hnul, -, hshort⟩ := checkPath_eq_ok.mp hcheck
    exact checkPath_eq_ok.mpr ⟨fun hz => hnul (hpre.subset hz), hne, Nat.le_trans hpre.length_le hshort⟩

theorem createFrom_of_stopped (h : Overlong p pre n post)
    (hc : t.createDirectory directory p = .error (.system .nameTooLong))
    (hdirs : ∀ q ∈ passed (start directory p) (pre ++ [n]), t.get? q = some .directory) (above : List Path) :
    Yields (.error (.system .nameTooLong)) (passed (start directory p) (pre ++ [n]))
      (createFrom directory (p :: above)) t := by
  refine .of_kept ?_ (Kept.refl _ _ t) hdirs
  rw [run_createFrom_of_error hc (by simp), not_reachesDirectory h.not_fits]
  rfl

/-- The directories before a name that is too long are created, and no other. -/
theorem createFrom_of_overlong {above : List Path} (h : Overlong p pre n post) (hcheck : checkPath p = .ok ())
    (hascent : Ascent directory p above) (hstart : t.get? (start directory p) = some .directory)
    (hfree : ∀ q ∈ passed (start directory p) (pre ++ [n]), t.Free q) :
    Yields (.error (.system .nameTooLong)) (passed (start directory p) (pre ++ [n]))
      (createFrom directory (p :: above)) t := by
  induction above generalizing p post with
  | nil =>
    rcases createDirectory_of_overlong h hcheck hfree with ⟨hc, hdirs⟩ | ⟨-, hdirs⟩
    · exact createFrom_of_stopped h hc hdirs []
    · -- before its last step, a path with nothing above it leads nowhere but to its start
      refine absurd (fun q hq => ?_) hdirs
      rcases hascent.ladder with hstays | hrung
      · exact absurd (hstays n (h.steps ▸ List.mem_append_right _ List.mem_cons_self)) h.name.1
      · rcases h.above (q := []) hrung with ⟨post', hnil⟩ | ⟨hrung, -⟩
        · exact absurd hnil.steps (by simp)
        · obtain rfl : q = start directory p := by simpa using (mem_passed_rung hrung).mp hq
          exact hstart
  | cons q above ih =>
    rcases createDirectory_of_overlong h hcheck hfree with ⟨hc, hdirs⟩ | ⟨hc, -⟩
    · exact createFrom_of_stopped h hc hdirs _
    have hq : start directory q = start directory p := hascent.start q List.mem_cons_self
    rcases h.above hascent.ladder.1 with ⟨post', habove⟩ | ⟨hrung, hnames⟩
    · have hyields := ih habove (hascent.check q List.mem_cons_self) hascent.tail
      rw [hq] at hyields
      obtain ⟨t', hrun, hget⟩ := hyields hstart hfree
      exact ⟨t', by rw [run_createFrom_of_notFound hc, run_bind_of_error hrun], hget⟩
    · have hmem (l : Location) :
          l ∈ target directory q :: way directory q ↔ l ∈ passed (start directory p) (pre ++ [n]) := by
        rw [target, way, hq]
        exact (mem_passed_rung hrung).symm
      have hclimb := hascent.tail.climb hnames
      obtain ⟨t₁, hrun, hdirs⟩ := run_createFrom (fits_of_check (hascent.check q List.mem_cons_self) hnames) hclimb
        (by rw [hq]; exact hstart) fun l hl => hfree l ((hmem l).mp hl)
      have hkept : Kept Everywhere (passed (start directory p) (pre ++ [n])) t t₁ := by
        refine (keeps_createFrom (List.forall_mem_cons.mpr ⟨?_, fun r hr => ?_⟩)).of_run hrun
        · exact (hmem _).mp List.mem_cons_self
        · exact (hmem _).mp (hclimb.target_mem hr)
      have hdirs : ∀ l ∈ passed (start directory p) (pre ++ [n]), t₁.get? l = some .directory := fun l hl =>
        hdirs l ((hmem l).mpr hl)
      -- what was missing is there now, so the long name is all that is left to fail
      rcases createDirectory_of_overlong h hcheck fun l hl => Or.inr (hdirs l hl) with ⟨hstop, -⟩ | ⟨-, hnot⟩
      · refine .of_kept ?_ hkept hdirs
        rw [run_createFrom_of_notFound hc, run_bind_of_ok hrun]
        exact Change.run_make_of_error (by rw [created, hstop, not_reachesDirectory h.not_fits]; rfl)
      · exact absurd hdirs hnot

/-! ### All paths -/

/-- Where the way is free, what the creation of a directory comes to depends on its path and its start alone. -/
theorem createAll_yields (directory : Location) (h : Path.Tidy p) (e : Option Entry) : ∃ r ls, ∀ t : FileTree,
    t.get? (start directory p) = e → (∀ q ∈ target directory p :: way directory p, t.Free q) →
      Yields r ls (createAll directory p) t := by
  by_cases hne : p = []
  · refine ⟨.ok (), [], fun t _ _ => .of_unchanged ?_⟩
    rw [createAll, hne]
    rfl
  have hall : createAll directory p = createFrom directory (p :: Path.ancestors p) := by
    rw [createAll, if_neg (by simpa using hne)]
  rw [hall]
  cases hcheck : checkPath p with
  | error e' => exact ⟨.error e', [], fun t _ _ => .of_unchanged (createFrom_of_check hne hcheck _ t)⟩
  | ok _ =>
    have hascent : Ascent directory p (Path.ancestors p) := ascent_ancestors h hcheck
    by_cases hstart : e = some .directory
    · subst hstart
      by_cases hfits : Fits p
      · refine ⟨.ok (), target directory p :: way directory p, fun t hstart hfree => ?_⟩
        obtain ⟨t', hrun, hdirs⟩ := run_createFrom hfits (climb_ancestors h hfits) hstart hfree
        have hkept := keeps_createAll directory h t
        rw [hall, hrun] at hkept
        exact .of_kept hrun hkept hdirs
      · obtain ⟨pre, n, post, hlong⟩ := exists_overlong hcheck hfits
        exact ⟨_, _, fun t hstart hfree => createFrom_of_overlong hlong hcheck hascent hstart fun q hq =>
          hfree q (List.mem_cons_of_mem _ (hlong.passed_subset hq))⟩
    · have hstarts : ∀ q ∈ p :: Path.ancestors p, start directory q = start directory p :=
        List.forall_mem_cons.mpr ⟨rfl, hascent.start⟩
      obtain ⟨r, hr⟩ := createFrom_of_no_start hstarts
      refine ⟨r, [], fun t he hfree => .of_unchanged (hr t ?_)⟩
      exact (hfree _ (start_mem directory p)).resolve_right fun hd => hstart (he ▸ hd)

end ObjectTables.FileTree
