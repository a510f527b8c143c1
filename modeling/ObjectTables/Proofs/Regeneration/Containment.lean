import ObjectTables.Proofs.Regeneration.Attempt

/-! What a failed run leaves (`run_contained`). Outside the scratch directory nothing is removed. A prefix of what
    is published, in the order of its publication, may stand there as a whole, and directories on the way to
    the scratch directory and to the published files; all else is as before. The scratch directory is gone. -/

namespace ObjectTables.Regeneration

open FileTree Run

variable {directory : Location} {tool : Tool} {sites : Sites} {t u u' : FileTree} {q q' : Progress}
  {published : List (Location × Bytes)} {x : Texts} {up : List Name} {n : Name}

/-- What a run publishes from its scratch directory, in order: where, and which content. -/
def publications (directory : Location) (sites : Sites) (x : Texts) : List (Location × Bytes) :=
  [(target directory sites.publishedTable, x.lookupTable.published.encode),
    (target directory sites.publishedHeader, x.completed.text.published.encode)]

/-- Outside the scratch directory, some files are published. Elsewhere nothing has changed, but for directories
    on the way to the scratch directory and to the published files, where nothing stood. -/
def Contained (directory : Location) (sites : Sites) (published : List (Location × Bytes)) (t u : FileTree) : Prop :=
  ∀ l, ¬ target directory sites.scratchDirectory <+: l →
    match published.lookup l with
    | some x => u.get? l = some (.file x)
    | none => u.get? l = t.get? l ∨ l ∈ sites.ways directory ∧ t.get? l = none ∧ u.get? l = some .directory

namespace Contained

theorem of_kept (h : Kept (¬ target directory sites.scratchDirectory <+: ·) (sites.ways directory) t u) :
    Contained directory sites [] t u := h

theorem kept (h : Contained directory sites published t u)
    (hkept : Kept (¬ target directory sites.scratchDirectory <+: ·) (sites.ways directory) u u') :
    Contained directory sites published t u' := by
  intro l hl
  have hbefore := h l hl
  split at hbefore
  · exact hkept.get? hl hbefore
  · rcases hbefore with heq | ⟨hmem, hnone, hdir⟩
    · rw [← heq]
      exact hkept l hl
    · exact Or.inr ⟨hmem, hnone, hkept.get? hl hdir⟩

theorem after (h : Contained directory sites published u u')
    (hkept : Kept (¬ target directory sites.scratchDirectory <+: ·) (sites.ways directory) t u) :
    Contained directory sites published t u' := by
  intro l hl
  have hafter := h l hl
  split at hafter
  · exact hafter
  · rcases hkept l hl with heq | ⟨hmem, hnone, hdir⟩
    · rwa [← heq]
    · rcases hafter with heq | ⟨-, hnone', -⟩
      · exact Or.inr ⟨hmem, hnone, heq.trans hdir⟩
      · rw [hdir] at hnone'
        cases hnone'

theorem write (h : Contained directory sites published t u) {p : Path} {y : Bytes}
    (hwrite : u.write directory p y = .ok u') (hnew : published.lookup (target directory p) = none) :
    Contained directory sites (published ++ [(target directory p, y)]) t u' := by
  intro l hl
  have hbefore := h l hl
  rw [get?_of_write hwrite, List.lookup_append, List.lookup_cons]
  by_cases he : l = target directory p
  · rw [he, hnew, if_pos rfl, beq_self_eq_true]
    rfl
  · rw [if_neg he, beq_false_of_ne he, List.lookup_nil, Option.or_none]
    exact hbefore

end Contained

theorem directory_of_write {p : Path} {y : Bytes} {l : Location} (hwrite : u.write directory p y = .ok u')
    (hl : u.get? l = some .directory) : u'.get? l = some .directory := by
  obtain ⟨m, hwritable, -⟩ := bind_eq_ok.mp hwrite
  obtain ⟨-, -, -, rfl, -, hfile⟩ := writable_eq_ok.mp hwritable
  rw [get?_of_write hwrite, if_neg (by rintro rfl; exact hfile hl), hl]

/-- The directories stay, but for those inside the scratch directory. -/
def Standing (directory : Location) (scratch : Path) (t u : FileTree) : Prop :=
  ∀ l, Apart directory scratch l → t.get? l = some .directory → u.get? l = some .directory

theorem Standing.refl (directory : Location) (scratch : Path) (t : FileTree) : Standing directory scratch t t :=
  fun _ _ h => h

theorem Standing.trans {t'' : FileTree} {scratch : Path} (h : Standing directory scratch t u)
    (h' : Standing directory scratch u t'') : Standing directory scratch t t'' := fun l hl hd => h' l hl (h l hl hd)

theorem keeps_publish {scratch source goal : Path} (h : Path.Tidy goal) :
    Keeps (Standing directory scratch) (Publication.publish directory source goal) := by
  intro t
  obtain ⟨t₁, hkept, ⟨e, hrun⟩ | ⟨text, t', -, hwrite, hrun⟩⟩ := Publication.run_publish_cases h source t
  · rw [hrun]
    exact fun l _ hl => hkept.get? trivial hl
  · rw [hrun]
    exact fun l _ hl => directory_of_write hwrite (hkept.get? trivial hl)

theorem tidy_output {p : Path} (hp : p ∈ sites.outputs) : Path.Tidy p := by
  obtain ⟨up, n, hends⟩ := (Sites.below_output hp).endsIn
  exact hends.tidy

theorem keeps_work (htool : tool.Confined directory) (sites : Sites) :
    Keeps (OnTree (Standing directory sites.scratchDirectory))
      (work directory tool sites (.inside sites.scratchDirectory)) := by
  have trans (a b c : Progress) : OnTree (Standing directory sites.scratchDirectory) a b →
      OnTree (Standing directory sites.scratchDirectory) b c →
      OnTree (Standing directory sites.scratchDirectory) a c := Standing.trans
  rw [work_eq]
  refine ((keeps_prepare htool sites).mono fun _ _ h l hl hd => h.get? hl hd).bind trans fun _ => ?_
  have htable : sites.publishedTable ∈ sites.outputs := by simp [Sites.outputs]
  have hheader : sites.publishedHeader ∈ sites.outputs := by simp [Sites.outputs]
  refine Keeps.bind ?_ trans fun _ => keeps_pure (Standing.refl _ _) _
  exact (keeps_change (keeps_publish (tidy_output htable))).bind trans fun _ =>
    keeps_change (keeps_publish (tidy_output hheader))

/-- The part of a run before the publications, from the claim of the scratch directory on. -/
def preparation (directory : Location) (tool : Tool) (sites : Sites) : Run Report := do
  let claim ← Run.change (Scratch.claim directory sites.scratchDirectory)
  prepare directory tool sites (.inside claim.path)

theorem ways_of_output {p : Path} (hp : p ∈ sites.outputs) (h : Kept Everywhere (way directory p) t u) :
    Kept (¬ target directory sites.scratchDirectory <+: ·) (sites.ways directory) t u :=
  h.mono (fun _ _ => trivial) fun _ hl => Sites.mem_ways_of_output hp hl

/-- What has been published when the publications end, whether they succeed or not. -/
theorem release_cases (h : sites.Separated directory) (x : Texts) (q : Progress)
    (hfinal : q.tree.get? (target directory (ScratchFiles.inside sites.scratchDirectory).finalHeader) =
      some (.file x.completed.text.encode)) :
    ∃ table published, published <+: publications directory sites { x with lookupTable := table } ∧
      (published ≠ [] →
        q.tree.Holds (target directory (ScratchFiles.inside sites.scratchDirectory).lookupTable) table) ∧
      Contained directory sites published q.tree
        ((release directory sites (.inside sites.scratchDirectory)).run q).2.tree ∧
      ((release directory sites (.inside sites.scratchDirectory)).run q).2.calls = q.calls := by
  have htable : sites.publishedTable ∈ sites.outputs := by simp [Sites.outputs]
  have hheader : sites.publishedHeader ∈ sites.outputs := by simp [Sites.outputs]
  have hrefl : Contained directory sites [] q.tree q.tree := .of_kept (Kept.refl _ _ _)
  obtain ⟨t₁, hkept₁, ⟨e, hrun₁⟩ | ⟨table, t₁', hread₁, hwrite₁, hrun₁⟩⟩ := Publication.run_publish_cases
    (tidy_output htable) (ScratchFiles.inside sites.scratchDirectory).lookupTable q.tree
  · refine ⟨[], [], List.nil_prefix, fun h => absurd rfl h, ?_⟩
    rw [release, run_bind_of_error (by rw [run_change, hrun₁])]
    exact ⟨hrefl.kept (ways_of_output htable hkept₁), rfl⟩
  · have hpublished : Contained directory sites
        [(target directory sites.publishedTable, table.published.encode)] q.tree t₁' :=
      (hrefl.kept (ways_of_output htable hkept₁)).write hwrite₁ rfl
    have hholds := holds_of_readText hread₁
    rw [release, run_bind_of_ok (run_change_of_ok hrun₁), run_change]
    obtain ⟨t₂, hkept₂, ⟨e, hrun₂⟩ | ⟨text, t₂', hread₂, hwrite₂, hrun₂⟩⟩ := Publication.run_publish_cases
      (tidy_output hheader) (ScratchFiles.inside sites.scratchDirectory).finalHeader t₁'
    · rw [hrun₂]
      exact ⟨table, _, (List.prefix_append _ [_]), fun _ => hholds,
        hpublished.kept (ways_of_output hheader hkept₂), rfl⟩
    · -- the completed header is still what it was
      obtain rfl : text = x.completed.text := by
        refine (holds_of_readText hread₂).eq_of_get? ?_
        have hoff : target directory (ScratchFiles.inside sites.scratchDirectory).finalHeader ≠
            target directory sites.publishedTable := by
          intro he
          refine h.clear (List.mem_append_right _ htable) _ List.mem_cons_self ?_
          rw [← he, (ScratchFiles.inside_final sites.scratchDirectory).target_eq]
          exact List.prefix_append _ _
        rw [get?_of_write hwrite₁, if_neg hoff]
        exact hkept₁.get? trivial hfinal
      have hnew : [(target directory sites.publishedTable, table.published.encode)].lookup
          (target directory sites.publishedHeader) = none := by
        rw [List.lookup_cons, beq_false_of_ne h.outputs_ne.1.symm, List.lookup_nil]
      rw [hrun₂]
      exact ⟨table, _, List.prefix_rfl, fun _ => hholds,
        (hpublished.kept (ways_of_output hheader hkept₂)).write hwrite₂ hnew, rfl⟩

/-- What the work in the scratch directory has published when it ends, whether it succeeds or not. -/
theorem work_cases (h : sites.Separated directory) (htool : tool.Confined directory) (hcalls : q.calls = []) :
    ∃ x published, published <+: publications directory sites x ∧
      (published ≠ [] → Obtained directory tool sites q.tree
        ((work directory tool sites (.inside sites.scratchDirectory)).run q).2.calls x) ∧
      Contained directory sites published q.tree
        ((work directory tool sites (.inside sites.scratchDirectory)).run q).2.tree ∧
      ((∃ e q', (prepare directory tool sites (.inside sites.scratchDirectory)).run q = (.error e, q')) →
        published = []) := by
  have hkept {r : Except Failure Report} {q' : Progress}
      (hrun : (prepare directory tool sites (.inside sites.scratchDirectory)).run q = (r, q')) :
      Kept (¬ target directory sites.scratchDirectory <+: ·) (sites.ways directory) q.tree q'.tree :=
    Kept.mono ((keeps_prepare htool sites).of_run hrun) (fun l hl hpre => absurd hpre hl) (by simp)
  rw [work_eq]
  rcases run_bind_cases (prepare directory tool sites (.inside sites.scratchDirectory)) _ q with
    ⟨e, q₁, hprepare, hrun⟩ | ⟨report, q₁, hprepare, hrun⟩
  · rw [hrun]
    exact ⟨⟨[], [], [], [], [], []⟩, [], List.nil_prefix, fun h => absurd rfl h, .of_kept (hkept hprepare),
      fun _ => rfl⟩
  · -- the lookup table is the text that is read for its publication, which comes after the last call
    obtain ⟨x, hfinal, hobtained⟩ := prepare_eq_ok h htool hcalls hprepare
    obtain ⟨table, published, horder, hholds, hcontained, hsame⟩ := release_cases h x q₁ hfinal
    rw [hrun, run_return, hsame]
    refine ⟨{ x with lookupTable := table }, published, horder, fun hne => hobtained table (hholds hne),
      hcontained.after (hkept hprepare), ?_⟩
    rintro ⟨e, q', herror⟩
    rw [hprepare] at herror
    cases herror

/-- A run fails with its claim, or after its work: then it has removed the scratch directory, or tried to, and
    a copy may have added directories on its way. -/
theorem run_error_cases (hends : EndsIn sites.scratchDirectory up n) {f : Failure} {p : Progress}
    (hrun : (run directory tool sites).run { tree := t } = (.error f, p)) :
    ((Scratch.claim directory sites.scratchDirectory).run t = (.error f, p.tree)) ∨
    ∃ t₁ r q, (Scratch.claim directory sites.scratchDirectory).run t = (.ok ⟨sites.scratchDirectory, false⟩, t₁) ∧
      (work directory tool sites (.inside sites.scratchDirectory)).run { tree := t₁ } = (r, q) ∧ p.calls = q.calls ∧
      Kept Everywhere (way directory sites.publishedSource)
        ((Scratch.remove directory sites.scratchDirectory).run q.tree).2 p.tree := by
  have hsource : sites.publishedSource ∈ sites.outputs := by simp [Sites.outputs]
  rw [run] at hrun
  rcases hclaim : (Scratch.claim directory sites.scratchDirectory).run t with ⟨e | claim, t₁⟩
  · rw [run_bind_of_error (by rw [run_change, hclaim])] at hrun
    cases hrun
    exact Or.inl rfl
  obtain ⟨rfl, -⟩ := Scratch.reachesDirectory_of_claim hends.ne_nil hclaim
  rw [run_bind_of_ok (run_change_of_ok (p := { tree := t }) hclaim)] at hrun
  rcases hwork : (work directory tool sites (.inside sites.scratchDirectory)).run { tree := t₁ } with ⟨e | report, q⟩
  · -- the claim is discarded
    obtain ⟨notices, hunder⟩ := run_under_of_error directory ⟨sites.scratchDirectory, false⟩ hwork
    rw [run_bind_of_error hunder] at hrun
    cases hrun
    refine Or.inr ⟨t₁, _, _, rfl, hwork, rfl, ?_⟩
    rw [Scratch.discard_of_due rfl]
    exact Kept.refl _ _ _
  -- the claim is closed, and only then is the source file copied
  rw [run_bind_of_ok (run_under_of_ok directory ⟨sites.scratchDirectory, false⟩ hwork)] at hrun
  refine Or.inr ⟨t₁, _, _, rfl, hwork, ?_⟩
  have hclose := Scratch.run_close directory ⟨sites.scratchDirectory, false⟩ q.tree
  rcases hremove : (Scratch.remove directory sites.scratchDirectory).run q.tree with ⟨e | _, t₂⟩
  · rw [run_bind_of_error (by rw [run_change, hclose.trans hremove])] at hrun
    cases hrun
    exact ⟨rfl, Kept.refl _ _ _⟩
  rw [run_bind_of_ok (run_change_of_ok (hclose.trans hremove))] at hrun
  obtain ⟨t₃, hkept, ⟨e, hcopy⟩ | ⟨y, t', -, hcopy⟩⟩ :=
    Publication.run_copy_cases (tidy_output hsource) sites.dataSource t₂
  · rw [run_bind_of_error (by rw [run_change, hcopy])] at hrun
    cases hrun
    exact ⟨rfl, hkept⟩
  · rw [run_bind_of_ok (run_change_of_ok (p := { q with tree := t₂ }) hcopy)] at hrun
    cases hrun

/-- The parts of a run that has succeeded. -/
theorem run_eq_ok (hends : EndsIn sites.scratchDirectory up n) {report : Report}
    (hrun : (run directory tool sites).run q = (.ok report, q')) :
    ∃ r q₁ q₂ q₃ q₄,
      (change (Scratch.claim directory sites.scratchDirectory)).run q = (.ok ⟨sites.scratchDirectory, false⟩, q₁) ∧
      (prepare directory tool sites (.inside sites.scratchDirectory)).run q₁ = (.ok r, q₂) ∧
      (release directory sites (.inside sites.scratchDirectory)).run q₂ = (.ok (), q₃) ∧
      (change (Scratch.remove directory sites.scratchDirectory)).run q₃ = (.ok (), q₄) ∧
      (change (Publication.copy directory sites.dataSource sites.publishedSource)).run q₄ = (.ok (), q') ∧
      report = { r with products := r.products ++ [⟨.dataSource, sites.publishedSource⟩] } := by
  obtain ⟨claim, q₁, hclaim, hrun₁⟩ := run_bind_eq_ok hrun
  obtain ⟨r, q₃, hunder, hrun₂⟩ := run_bind_eq_ok hrun₁
  obtain ⟨_, q₄, hclose, hrun₃⟩ := run_bind_eq_ok hrun₂
  obtain ⟨_, q₅, hcopy, hrun₄⟩ := run_bind_eq_ok hrun₃
  cases hrun₄
  obtain ⟨rfl, -⟩ := Scratch.reachesDirectory_of_claim hends.ne_nil (change_eq hclaim).1
  have hwork := run_under_eq_ok hunder
  rw [work_eq] at hwork
  obtain ⟨r', q₂, hprepare, hwork₁⟩ := run_bind_eq_ok hwork
  obtain ⟨_, q₃', hrelease, hwork₂⟩ := run_bind_eq_ok hwork₁
  cases hwork₂
  exact ⟨r, q₁, q₂, q₃, q₄, hclaim, hprepare, hrelease, hclose, hcopy, rfl⟩

/-- If no path to it leads through it, the scratch directory is gone when a run fails that has claimed it. -/
theorem cleared (h : sites.Separated directory) (htool : tool.Confined directory) {t₁ : FileTree}
    {r : Except Failure Report} (houtside : Outside directory sites.scratchDirectory)
    (hclaim : (Scratch.claim directory sites.scratchDirectory).run t = (.ok ⟨sites.scratchDirectory, false⟩, t₁))
    (hwork : (work directory tool sites (.inside sites.scratchDirectory)).run { tree := t₁ } = (r, q))
    (hkept : Kept Everywhere (way directory sites.publishedSource)
      ((Scratch.remove directory sites.scratchDirectory).run q.tree).2 u) :
    ∀ l, target directory sites.scratchDirectory <+: l → u.get? l = none := by
  obtain ⟨up, n, hends⟩ := h.name
  obtain ⟨-, hreaches⟩ := Scratch.reachesDirectory_of_claim hends.ne_nil hclaim
  obtain ⟨hfits, -⟩ := locate_eq_ok.mp (reachesDirectory_iff.mp hreaches).1
  -- the way is as the claim left it, so what the claim has made is what is removed
  have hstanding := (keeps_work htool sites).of_run hwork
  have hstays : ∀ l ∈ target directory sites.scratchDirectory :: way directory sites.scratchDirectory,
      q.tree.get? l = some .directory := by
    refine fun l hl => hstanding l (fun hpre => ?_) (get?_of_reachesDirectory hreaches l hl)
    exact (List.mem_cons.mp hl).elim id fun hway => houtside l hway hpre
  obtain ⟨htarget, hway⟩ := List.forall_mem_cons.mp hstays
  obtain ⟨t₂, hremove, herased⟩ := Scratch.run_remove_of_reaches hends houtside (reachesDirectory_of hfits hway htarget)
  intro l hl
  rw [hremove] at hkept
  rcases hkept l trivial with heq | ⟨hmem, -⟩
  · rw [heq, herased, if_pos hl]
  · have hsource : sites.publishedSource ∈ sites.inputs ++ sites.outputs := by simp [Sites.outputs]
    exact absurd hl (h.clear hsource l (List.mem_cons_of_mem _ hmem))

/-- What a failed run has come to. It has published a part of what it made ready, in order, and nothing if it
    failed before. The source file is as before unless a path leads through its place, and unless a path to
    it leads through it, nothing is left where the scratch directory was. -/
structure Failed (directory : Location) (tool : Tool) (sites : Sites) (t : FileTree) (p : Progress) (x : Texts)
    (published : List (Location × Bytes)) : Prop where
  order : published <+: publications directory sites x
  texts : published ≠ [] → Obtained directory tool sites t p.calls x
  contained : Contained directory sites published t p.tree
  source : target directory sites.publishedSource ∉ sites.ways directory →
    p.tree.get? (target directory sites.publishedSource) = t.get? (target directory sites.publishedSource)
  early : (∃ e q, (preparation directory tool sites).run { tree := t } = (.error e, q)) → published = []
  cleared : (∃ c u, (Scratch.claim directory sites.scratchDirectory).run t = (.ok c, u)) →
    Outside directory sites.scratchDirectory →
    ∀ l, target directory sites.scratchDirectory <+: l → p.tree.get? l = none

theorem Contained.source (h : sites.Separated directory) (horder : published <+: publications directory sites x)
    (hcontained : Contained directory sites published t u)
    (hoff : target directory sites.publishedSource ∉ sites.ways directory) :
    u.get? (target directory sites.publishedSource) = t.get? (target directory sites.publishedSource) := by
  have hsource : sites.publishedSource ∈ sites.inputs ++ sites.outputs := by simp [Sites.outputs]
  have hnone : published.lookup (target directory sites.publishedSource) = none := by
    obtain ⟨htable, hheader⟩ := h.outputs_ne.2
    refine List.lookup_eq_none_iff.mpr fun y hy => ?_
    have hy := horder.subset hy
    simp only [publications, List.mem_cons, List.not_mem_nil, or_false] at hy
    rcases hy with rfl | rfl
    · exact bne_iff_ne.mpr htable.symm
    · exact bne_iff_ne.mpr hheader.symm
  have hl := hcontained _ (h.clear hsource _ List.mem_cons_self)
  rw [hnone] at hl
  exact hl.resolve_right fun hmem => hoff hmem.1

/-- A failed run is contained. -/
theorem run_contained (h : sites.Separated directory) (htool : tool.Confined directory) {f : Failure} {p : Progress}
    (hrun : (run directory tool sites).run { tree := t } = (.error f, p)) :
    ∃ x published, Failed directory tool sites t p x published := by
  obtain ⟨up, n, hends⟩ := h.name
  have hclaimed := Scratch.keeps_claim directory hends
  rcases run_error_cases hends hrun with hclaim | ⟨t₁, r, q, hclaim, hwork, hcalls, hkept⟩
  · have hcontained : Contained directory sites [] t p.tree :=
      .of_kept ((hclaimed.of_run hclaim).mono (fun _ hl => hl) fun l hl => Sites.mem_ways.mpr (Or.inl hl))
    refine ⟨⟨[], [], [], [], [], []⟩, [], List.nil_prefix, fun hne => absurd rfl hne, hcontained,
      hcontained.source h (x := ⟨[], [], [], [], [], []⟩) List.nil_prefix, fun _ => rfl, ?_⟩
    rintro ⟨c, u, hok⟩
    rw [hclaim] at hok
    cases hok
  · obtain ⟨x, published, horder, htexts, hcontained, hearly⟩ := work_cases (q := { tree := t₁ }) h htool rfl
    rw [hwork] at htexts hcontained
    have hclaimed := hclaimed.of_run hclaim
    have hremoved := Scratch.keeps_remove directory hends q.tree
    have hcontained : Contained directory sites published t p.tree :=
      ((hcontained.after (hclaimed.mono (fun _ hl => hl) fun l hl => Sites.mem_ways.mpr (Or.inl hl))).kept
        (hremoved.mono (fun _ hl => hl) (by simp))).kept (ways_of_output (by simp [Sites.outputs]) hkept)
    refine ⟨x, published, horder, fun hne => ?_, hcontained, hcontained.source h horder, ?_,
      fun _ houtside => cleared h htool houtside hclaim hwork hkept⟩
    · rw [hcalls]
      exact (htexts hne).before hclaimed fun p hp => h.clear (List.mem_append_left _ hp) _ List.mem_cons_self
    · rintro ⟨e, q', herror⟩
      rw [preparation, run_bind_of_ok (run_change_of_ok (p := { tree := t }) hclaim)] at herror
      exact hearly ⟨e, q', herror⟩

/-- A run in the small system that fails after the lookup table is published: a directory stands in the symbol
    header's place. -/
theorem run_contained_small : ∃ f p,
    (run [] (Rehearsal.tool [] Small.plans) (Small.sites (Path.ofString "tempobj"))).run
      { tree := Small.system [Small.folder "openssl" [Small.folder "obj_mac.h" []]] } = (.error f, p) ∧
    ∃ x published, Failed [] (Rehearsal.tool [] Small.plans) (Small.sites (Path.ofString "tempobj"))
      (Small.system [Small.folder "openssl" [Small.folder "obj_mac.h" []]]) p x published := by
  have hfails : ((run [] (Rehearsal.tool [] Small.plans) (Small.sites (Path.ofString "tempobj"))).run
      { tree := Small.system [Small.folder "openssl" [Small.folder "obj_mac.h" []]] }).1.isOk = false := by
    decide +kernel
  obtain ⟨f, p, hrun⟩ := run_eq_error_of_isOk hfails
  exact ⟨f, p, hrun, run_contained (by decide +kernel) (Rehearsal.confined fun stage => by cases stage <;> rfl) hrun⟩

/-- The plans of a generator whose first call fails. -/
def failing : Rehearsal.Plans where
  numbering := { outcome := .exits 3 [] }

/-- In the small system, a run that has claimed its scratch directory fails, and leaves a directory where there was
    nothing. -/
def LeavesDirectory (scratch : Path) (l : Location) : Prop :=
  Sites.Separated [] (Small.sites scratch) ∧ (Rehearsal.tool [] failing).Confined [] ∧
  ((Scratch.claim [] (Small.sites scratch).scratchDirectory).run (Small.system [])).1.isOk = true ∧
  (Small.system []).get? l = none ∧
  ∃ f p, (run [] (Rehearsal.tool [] failing) (Small.sites scratch)).run { tree := Small.system [] } = (.error f, p) ∧
    p.tree.get? l = some .directory

theorem LeavesDirectory.of_played {scratch : Path} {l : Location} (hsites : Sites.Separated [] (Small.sites scratch))
    (hclaim : ((Scratch.claim [] (Small.sites scratch).scratchDirectory).run (Small.system [])).1.isOk = true)
    (hnone : (Small.system []).get? l = none)
    (hfails :
      ((run [] (Rehearsal.tool [] failing) (Small.sites scratch)).run { tree := Small.system [] }).1.isOk = false ∧
      ((run [] (Rehearsal.tool [] failing) (Small.sites scratch)).run { tree := Small.system [] }).2.tree.get? l =
        some .directory) : LeavesDirectory scratch l := by
  obtain ⟨f, p, hrun⟩ := run_eq_error_of_isOk hfails.1
  refine ⟨hsites, Rehearsal.confined fun stage => by cases stage <;> rfl, hclaim, hnone, f, p, hrun, ?_⟩
  rw [← hfails.2, hrun]

/-- A scratch path through the source file's place leaves a directory there, and one through the inside of the
    scratch directory leaves that. -/
theorem failed_run_leaves_directories :
    LeavesDirectory (Path.ofString "crypto/objects/obj_dat.c/../../../tempobj")
      (target [] (Small.sites (Path.ofString "crypto/objects/obj_dat.c/../../../tempobj")).publishedSource) ∧
    LeavesDirectory (Path.ofString "tempobj/x/../../tempobj")
      (target [] (Small.sites (Path.ofString "tempobj/x/../../tempobj")).scratchDirectory) :=
  ⟨.of_played (by decide +kernel) (by decide +kernel) (by decide +kernel) (by decide +kernel),
    .of_played (by decide +kernel) (by decide +kernel) (by decide +kernel) (by decide +kernel)⟩

end ObjectTables.Regeneration
