import ObjectTables.Publication
import ObjectTables.Proofs.FileTree.Creation

/-! What the file operations of a run do. Reading changes nothing. A text is published as a whole or not at
    all: before its file is written, directories above it may have been created (`ancestry`), and nothing else
    has changed (`run_publish_outcome`, `run_copy_outcome`). These are directories on the way to the file, if
    its path has no meaningless end (`run_publish_cases`, `run_copy_cases`). -/

namespace ObjectTables.Publication

open FileTree

variable {t t' : FileTree} {directory l : Location} {p source goal : Path} {text : Text} {P : Location → Prop}
  {ls : List Location} {up : List Name} {n : Name}

/-! ### Reading and writing -/

theorem run_readText (directory : Location) (p : Path) (t : FileTree) :
    (readText directory p).run t = ((t.readText directory p).mapError (Failure.read p), t) := by
  rw [readText, Change.run_adapt, Change.run_look]

theorem run_readText_of_ok (h : t.readText directory p = .ok text) :
    (readText directory p).run t = (.ok text, t) := by
  rw [run_readText, h]
  rfl

theorem run_readText_of_error {e : Cause} (h : t.readText directory p = .error e) :
    (readText directory p).run t = (.error (.read p e), t) := by
  rw [run_readText, h]
  rfl

theorem readText_of_run (h : (readText directory p).run t = (.ok text, t')) :
    t' = t ∧ t.readText directory p = .ok text := by
  rw [run_readText] at h
  cases hr : t.readText directory p with
  | error e =>
    rw [hr] at h
    cases h
  | ok x =>
    rw [hr] at h
    cases h
    exact ⟨rfl, rfl⟩

theorem keeps_readText (P : Location → Prop) (ls : List Location) (directory : Location) (p : Path) :
    Keeps (Kept P ls) (readText directory p) := by
  intro t
  rw [run_readText]
  exact Kept.refl P ls t

theorem run_writeText_of_ok (h : t.write directory p text.encode = .ok t') :
    (writeText directory p text).run t = (.ok (), t') := by
  rw [writeText, Change.run_adapt, Change.run_make_of_ok h]
  rfl

/-- A write is made as a whole or not at all. -/
theorem run_writeText_cases (directory : Location) (p : Path) (text : Text) (t : FileTree) :
    (∃ e, (writeText directory p text).run t = (.error e, t)) ∨
    ∃ t', (writeText directory p text).run t = (.ok (), t') ∧ t.write directory p text.encode = .ok t' := by
  cases h : t.write directory p text.encode with
  | ok t' => exact Or.inr ⟨t', run_writeText_of_ok h, rfl⟩
  | error e =>
    refine Or.inl ⟨Failure.write p e, ?_⟩
    rw [writeText, Change.run_adapt, Change.run_make_of_error h]
    rfl

theorem get?_of_writeText (h : (writeText directory p text).run t = (.ok (), t')) (l : Location) :
    t'.get? l = if l = target directory p then some (.file text.encode) else t.get? l := by
  rcases run_writeText_cases directory p text t with ⟨e, he⟩ | ⟨u, hu, hw⟩
  · rw [he] at h
    cases h
  · rw [hu] at h
    cases h
    exact get?_of_write hw l

/-- What has been written is read. -/
theorem readText_of_writeText (h : (writeText directory p text).run t = (.ok (), t')) :
    t'.readText directory p = .ok text := by
  rcases run_writeText_cases directory p text t with ⟨e, he⟩ | ⟨u, hu, hw⟩
  · rw [he] at h
    cases h
  · rw [hu] at h
    cases h
    exact readText_of_write hw

theorem keeps_writeText (h : ∀ l, P l → l ≠ target directory p) (ls : List Location) :
    Keeps (Kept P ls) (writeText directory p text) := by
  intro t
  rcases run_writeText_cases directory p text t with ⟨e, hr⟩ | ⟨t', hr, hw⟩
  · rw [hr]
    exact Kept.refl P ls t
  · rw [hr]
    intro l hl
    exact Or.inl (by rw [get?_of_write hw, if_neg (h l hl)])

/-! ### The directory of a path -/

theorem run_ensureParent_of_nil (h : Path.parent? p = none ∨ Path.parent? p = some []) (t : FileTree) :
    (ensureParent directory p).run t = (.ok (), t) := by
  rw [ensureParent]
  rcases h with h | h
  · rw [h]
    rfl
  · rw [h]
    rfl

theorem run_ensureParent_of_some {parent : Path} (h : Path.parent? p = some parent) (hne : parent ≠ [])
    (t : FileTree) : (ensureParent directory p).run t =
      if t.reaches directory parent then (.ok (), t)
      else ((createAll directory parent).adapt (Failure.createDirectory parent)).run t := by
  have hempty : parent.isEmpty = false := by simpa using hne
  rw [ensureParent, h]
  show (if (parent.isEmpty || t.reaches directory parent) = true then (pure () : Change Failure Unit)
    else (createAll directory parent).adapt (Failure.createDirectory parent)).run t = _
  rw [hempty, Bool.false_or]
  split <;> rfl

/-- Either there is nothing to do, or the parent of the path is created with those above it. -/
theorem run_ensureParent_cases (directory : Location) (p : Path) (t : FileTree) :
    (ensureParent directory p).run t = (.ok (), t) ∨ ∃ parent above, Path.ancestors p = parent :: above ∧ parent ≠ [] ∧
      (ensureParent directory p).run t =
        ((createAll directory parent).adapt (Failure.createDirectory parent)).run t := by
  rcases Path.parent?_cases p with ⟨parent, above, hparent, habove⟩ | ⟨hparent, -⟩
  · have hne : parent ≠ [] := (Path.ancestors_isPrefix (habove ▸ List.mem_cons_self)).1
    rw [run_ensureParent_of_some hparent hne]
    split
    · exact Or.inl rfl
    · exact Or.inr ⟨parent, above, habove, hne, rfl⟩
  · exact Or.inl (run_ensureParent_of_nil hparent t)

/-- The parent of a path is the last directory on its way. -/
theorem way_parent (directory : Location) {parent : Path} {above : List Path} (h : Path.Tidy p)
    (hp : Path.ancestors p = parent :: above) :
    parent ≠ [] ∧ parent <+: p ∧ parent.steps <+: p.steps ∧ Path.Tidy parent ∧
      ∀ l, l ∈ way directory p ↔ l ∈ target directory parent :: way directory parent := by
  have hmem : parent ∈ Path.ancestors p := hp ▸ List.mem_cons_self
  obtain ⟨hne, hpre⟩ := Path.ancestors_isPrefix hmem
  have hladder := Path.ladder_ancestors h
  rw [hp] at hladder
  refine ⟨hne, hpre, hladder.1.isPrefix, Path.tidy_of_mem_ancestors hmem, fun l => ?_⟩
  rw [target, way, way, start_eq_of_isPrefix hpre hne]
  exact mem_passed_rung hladder.1

/-- The locations of the directories above a path. -/
def ancestry (directory : Location) (p : Path) : List Location := (Path.ancestors p).map (target directory)

theorem ancestry_subset_way (h : Path.Tidy p) : ∀ l ∈ ancestry directory p, l ∈ way directory p := by
  intro l hl
  obtain ⟨q, hq, rfl⟩ := List.mem_map.mp hl
  cases hp : Path.ancestors p with
  | nil =>
    rw [hp] at hq
    exact absurd hq List.not_mem_nil
  | cons parent above =>
    obtain ⟨-, -, -, htidy, hway⟩ := way_parent directory h hp
    rw [hp] at hq
    refine (hway _).mpr ?_
    rcases List.mem_cons.mp hq with rfl | hq
    · exact List.mem_cons_self
    · rw [← Path.ancestors_of_cons hp] at hq
      exact target_mem_of_ancestor htidy hq

/-- Whether it succeeds or not, only directories above the path are added. -/
theorem keeps_ensureParent_ancestry (directory : Location) (p : Path) :
    Keeps (Kept Everywhere (ancestry directory p)) (ensureParent directory p) := by
  intro t
  rcases run_ensureParent_cases directory p t with hrun | ⟨parent, above, habove, hne, hrun⟩
  · rw [hrun]
    exact Kept.refl _ _ t
  · have hcreate : Keeps (Kept Everywhere (ancestry directory p)) (createAll directory parent) := by
      rw [createAll, if_neg (by simpa using hne), Path.ancestors_of_cons habove, ← habove]
      exact keeps_createFrom fun q hq => List.mem_map_of_mem hq
    rw [hrun]
    exact Change.keeps_adapt hcreate _ t

theorem keeps_ensureParent (directory : Location) (h : Path.Tidy p) :
    Keeps (Kept Everywhere (way directory p)) (ensureParent directory p) :=
  (keeps_ensureParent_ancestry directory p).mono fun _ _ hk => hk.mono (fun _ hl => hl) (ancestry_subset_way h)

theorem run_ensureParent (h : Path.Tidy p) (hfits : Fits p)
    (hstart : t.get? (start directory p) = some .directory) (hfree : ∀ q ∈ way directory p, t.Free q) :
    ∃ t', (ensureParent directory p).run t = (.ok (), t') ∧ Kept Everywhere (way directory p) t t' ∧
      ∀ q ∈ way directory p, t'.get? q = some .directory := by
  have hkeeps := keeps_ensureParent directory h t
  rcases Path.parent?_cases p with ⟨parent, above, hparent, habove⟩ | ⟨hparent, hnil⟩
  · obtain ⟨hne, hpre, hsteps, htidy, hway⟩ := way_parent directory h habove
    have hpfits := hfits.of_isPrefix hpre hne hsteps
    have hpstart : t.get? (start directory parent) = some .directory := by
      rw [start_eq_of_isPrefix hpre hne]
      exact hstart
    have hpfree : ∀ q ∈ target directory parent :: way directory parent, t.Free q := fun q hq =>
      hfree q ((hway q).mpr hq)
    rw [run_ensureParent_of_some hparent hne] at hkeeps ⊢
    split
    · next hr =>
      have hdirs := get?_of_reaches hr hpstart (hpfree _ List.mem_cons_self)
      exact ⟨t, rfl, Kept.refl _ _ t, fun q hq => hdirs q ((hway q).mp hq)⟩
    · next hr =>
      rw [if_neg hr] at hkeeps
      obtain ⟨t', hrun, hdirs⟩ := run_createAll htidy hpfits hpstart hpfree
      rw [Change.run_adapt, hrun] at hkeeps ⊢
      exact ⟨t', rfl, hkeeps, fun q hq => hdirs q ((hway q).mp hq)⟩
  · have hladder := Path.ladder_ancestors h
    rw [hnil] at hladder
    refine ⟨t, run_ensureParent_of_nil hparent t, Kept.refl _ _ t, fun q hq => ?_⟩
    rw [way_of_ladder hladder hq]
    exact hstart

/-! ### Publishing and copying -/

/-- A publication fails before its file is written, or writes the whole published form of its text. -/
theorem run_publish_outcome (directory : Location) (source goal : Path) (t : FileTree) :
    ∃ t₁, Kept Everywhere (ancestry directory goal) t t₁ ∧
      ((∃ e, (publish directory source goal).run t = (.error e, t₁)) ∨
      ∃ text t', t.readText directory source = .ok text ∧ t₁.write directory goal text.published.encode = .ok t' ∧
        (publish directory source goal).run t = (.ok (), t')) := by
  rw [publish]
  rcases run_bind_cases (readText directory source) _ t with ⟨e, t₁, hread, hrun⟩ | ⟨text, t₁, hread, hrun⟩
  · exact ⟨t₁, (keeps_readText Everywhere (ancestry directory goal) directory source).of_run hread, Or.inl ⟨e, hrun⟩⟩
  · obtain ⟨rfl, htext⟩ := readText_of_run hread
    rw [hrun]
    rcases run_bind_cases (ensureParent directory goal) _ t₁ with ⟨e, t₂, hensure, hrun⟩ | ⟨_, t₂, hensure, hrun⟩
    · exact ⟨t₂, (keeps_ensureParent_ancestry directory goal).of_run hensure, Or.inl ⟨e, hrun⟩⟩
    · have hkeeps := (keeps_ensureParent_ancestry directory goal).of_run hensure
      rw [hrun]
      rcases run_writeText_cases directory goal text.published t₂ with ⟨e, hwrite⟩ | ⟨t', hwrite, hw⟩
      · exact ⟨t₂, hkeeps, Or.inl ⟨e, hwrite⟩⟩
      · exact ⟨t₂, hkeeps, Or.inr ⟨text, t', htext, hw, hwrite⟩⟩

/-- A publication under a tidy path adds directories on the way there only. -/
theorem run_publish_cases (h : Path.Tidy goal) (source : Path) (t : FileTree) :
    ∃ t₁, Kept Everywhere (way directory goal) t t₁ ∧ ((∃ e, (publish directory source goal).run t = (.error e, t₁)) ∨
      ∃ text t', t.readText directory source = .ok text ∧ t₁.write directory goal text.published.encode = .ok t' ∧
        (publish directory source goal).run t = (.ok (), t')) := by
  obtain ⟨t₁, hkept, hcases⟩ := run_publish_outcome directory source goal t
  exact ⟨t₁, hkept.mono (fun _ hl => hl) (ancestry_subset_way h), hcases⟩

theorem eq_target_of_toOption (h : (t.locate directory p).toOption = some l) : l = target directory p := by
  cases hlocate : t.locate directory p with
  | error e =>
    rw [hlocate] at h
    cases h
  | ok m =>
    rw [hlocate] at h
    exact (Option.some.inj h).symm.trans (locate_eq_ok.mp hlocate).2.1

theorem copied_eq_ok {x : Bytes} : copied t directory source goal = .ok x ↔ ∃ y, t.read directory source = .ok y ∧
    x = if (t.locate directory goal).toOption = some (target directory source) then [] else y := by
  constructor
  · intro h
    obtain ⟨l, hlocate, h⟩ := bind_eq_ok.mp h
    obtain ⟨-, rfl, -⟩ := locate_eq_ok.mp hlocate
    split at h
    · next y hy => exact ⟨y, read_eq_ok.mpr ⟨_, hlocate, hy⟩, (Except.ok.inj h).symm⟩
    · cases h
  · rintro ⟨y, hread, rfl⟩
    obtain ⟨l, hlocate, hy⟩ := read_eq_ok.mp hread
    obtain ⟨-, rfl, -⟩ := locate_eq_ok.mp hlocate
    rw [copied, hlocate, ok_bind, hy]
    rfl

/-- The step of a copy that writes the file. -/
def written (directory : Location) (source goal : Path) (t : FileTree) : Except Cause FileTree := do
  let content ← copied t directory source goal
  t.write directory goal content

/-- A file that can be read and written is where its path leads. -/
theorem locate_target_iff {m : Location} {x : Bytes} (hwritable : t.writable directory goal = .ok m)
    (hread : t.read directory source = .ok x) :
    (t.locate directory goal).toOption = some (target directory source) ↔
      target directory source = target directory goal := by
  obtain ⟨-, hfits, hslashed, -, hway, -⟩ := writable_eq_ok.mp hwritable
  refine ⟨eq_target_of_toOption, fun h => ?_⟩
  have hgoal : t.locate directory goal = .ok (target directory goal) := by
    refine locate_eq_ok.mpr ⟨hfits, rfl, hway, fun _ => ?_, fun hs => ?_⟩
    · rw [← h, get?_of_read hread]
      rfl
    · rw [hslashed] at hs
      cases hs
  rw [hgoal, h]
  rfl

/-- What is written is what is read; where a file is copied to itself, nothing is left to read. -/
theorem written_eq_ok : written directory source goal t = .ok t' ↔ ∃ x, t.read directory source = .ok x ∧
    t.write directory goal (if target directory source = target directory goal then [] else x) = .ok t' := by
  constructor
  · intro h
    obtain ⟨content, hcopied, hwrite⟩ := bind_eq_ok.mp h
    obtain ⟨x, hread, rfl⟩ := copied_eq_ok.mp hcopied
    obtain ⟨m, hwritable, -⟩ := bind_eq_ok.mp hwrite
    simp only [locate_target_iff hwritable hread] at hwrite
    exact ⟨x, hread, hwrite⟩
  · rintro ⟨x, hread, hwrite⟩
    obtain ⟨m, hwritable, -⟩ := bind_eq_ok.mp hwrite
    refine bind_eq_ok.mpr ⟨_, copied_eq_ok.mpr ⟨x, hread, rfl⟩, ?_⟩
    simp only [locate_target_iff hwritable hread]
    exact hwrite

/-- A copy fails before its file is written, or writes the whole content, which is nothing if the file is copied to
    itself. -/
theorem run_copy_outcome (directory : Location) (source goal : Path) (t : FileTree) :
    ∃ t₁, Kept Everywhere (ancestry directory goal) t t₁ ∧
      ((∃ e, (copy directory source goal).run t = (.error e, t₁)) ∨
      ∃ x t', t₁.read directory source = .ok x ∧
        t₁.write directory goal (if target directory source = target directory goal then [] else x) = .ok t' ∧
        (copy directory source goal).run t = (.ok (), t')) := by
  rw [copy]
  rcases run_bind_cases (ensureParent directory goal) _ t with ⟨e, t₁, hensure, hrun⟩ | ⟨_, t₁, hensure, hrun⟩
  · exact ⟨t₁, (keeps_ensureParent_ancestry directory goal).of_run hensure, Or.inl ⟨e, hrun⟩⟩
  · rw [hrun]
    refine ⟨t₁, (keeps_ensureParent_ancestry directory goal).of_run hensure, ?_⟩
    show (∃ e, ((Change.make (written directory source goal)).adapt (Failure.copy source goal)).run t₁ = _) ∨ _
    cases hw : written directory source goal t₁ with
    | error e =>
      refine Or.inl ⟨Failure.copy source goal e, ?_⟩
      rw [Change.run_adapt, Change.run_make_of_error hw]
      rfl
    | ok t' =>
      obtain ⟨x, hread, hwrite⟩ := written_eq_ok.mp hw
      refine Or.inr ⟨x, t', hread, hwrite, ?_⟩
      show ((Change.make (written directory source goal)).adapt (Failure.copy source goal)).run t₁ = _
      rw [Change.run_adapt, Change.run_make_of_ok hw]
      rfl

/-- A copy to a tidy path adds directories on the way there only. -/
theorem run_copy_cases (h : Path.Tidy goal) (source : Path) (t : FileTree) :
    ∃ t₁, Kept Everywhere (way directory goal) t t₁ ∧ ((∃ e, (copy directory source goal).run t = (.error e, t₁)) ∨
      ∃ x t', t₁.write directory goal x = .ok t' ∧ (copy directory source goal).run t = (.ok (), t')) := by
  obtain ⟨t₁, hkept, hcases⟩ := run_copy_outcome directory source goal t
  exact ⟨t₁, hkept.mono (fun _ hl => hl) (ancestry_subset_way h),
    hcases.imp_right fun ⟨_, t', _, hwrite, hrun⟩ => ⟨_, t', hwrite, hrun⟩⟩

/-- A file can be written where a path leads, once the directories on its way are there. -/
structure Open (directory : Location) (goal : Path) (t : FileTree) : Prop where
  ends : ∃ up n, EndsIn goal up n
  slashed : Path.isSlashed goal = false
  fits : Fits goal
  start : t.get? (start directory goal) = some .directory
  free : ∀ q ∈ way directory goal, t.Free q
  file : t.get? (target directory goal) ≠ some .directory
  off : target directory goal ∉ way directory goal

theorem Open.tidy (h : Open directory goal t) : Path.Tidy goal := by
  obtain ⟨up, n, hends⟩ := h.ends
  exact hends.tidy

theorem Open.run_ensureParent (h : Open directory goal t) :
    ∃ t₁, (ensureParent directory goal).run t = (.ok (), t₁) ∧
      t₁.writable directory goal = .ok (target directory goal) ∧ Kept Everywhere (way directory goal) t t₁ ∧
      ∀ l, t₁.get? l = if l ∈ way directory goal then some .directory else t.get? l := by
  obtain ⟨t₁, hrun, hkept, hdirs⟩ := Publication.run_ensureParent h.tidy h.fits h.start h.free
  have hget (l : Location) (hl : l ∉ way directory goal) : t₁.get? l = t.get? l :=
    (hkept l trivial).resolve_right fun hmem => hl hmem.1
  refine ⟨t₁, hrun, writable_eq_ok.mpr ⟨h.ends, h.fits, h.slashed, rfl, hdirs, ?_⟩, hkept, fun l => ?_⟩
  · rw [hget _ h.off]
    exact h.file
  · split
    · next hl => exact hdirs l hl
    · next hl => exact hget l hl

/-- Where a file can be written, a text is published. -/
theorem run_publish (h : Open directory goal t) (htext : t.readText directory source = .ok text) :
    ∃ t', (publish directory source goal).run t = (.ok (), t') ∧ ∀ l, t'.get? l =
      if l = target directory goal then some (.file text.published.encode)
      else if l ∈ way directory goal then some .directory else t.get? l := by
  obtain ⟨t₁, hensure, hwritable, -, hget⟩ := h.run_ensureParent
  obtain ⟨t', hwrite⟩ := write_of_writable hwritable text.published.encode
  refine ⟨t', ?_, fun l => by rw [get?_of_write hwrite, hget]⟩
  rw [publish, run_bind_of_ok (run_readText_of_ok htext), run_bind_of_ok hensure]
  exact run_writeText_of_ok hwrite

/-- Where a file can be written, another is copied; a file that is copied to itself is emptied. -/
theorem run_copy {x : Bytes} (h : Open directory goal t) (hread : t.read directory source = .ok x) :
    ∃ t', (copy directory source goal).run t = (.ok (), t') ∧ ∀ l, t'.get? l =
      if l = target directory goal then
        some (.file (if target directory source = target directory goal then [] else x))
      else if l ∈ way directory goal then some .directory else t.get? l := by
  obtain ⟨t₁, hensure, hwritable, hkept, hget⟩ := h.run_ensureParent
  obtain ⟨t', hwrite⟩ := write_of_writable hwritable (if target directory source = target directory goal then [] else x)
  refine ⟨t', ?_, fun l => by rw [get?_of_write hwrite, hget]⟩
  have hread := hkept.read (fun _ _ => trivial) hread
  rw [copy, run_bind_of_ok hensure]
  show ((Change.make (written directory source goal)).adapt (Failure.copy source goal)).run t₁ = _
  rw [Change.run_adapt, Change.run_make_of_ok (written_eq_ok.mpr ⟨x, hread, hwrite⟩)]
  rfl

end ObjectTables.Publication
