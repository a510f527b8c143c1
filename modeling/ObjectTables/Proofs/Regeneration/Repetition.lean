import ObjectTables.Proofs.Regeneration.Containment
import ObjectTables.Proofs.Regeneration.Twins

/-! A run again after a run. What a successful run leaves is its own leftover: the published files with the directories
    on their ways, and no scratch directory (`twins_of_run`). So a run from there comes to the same, and changes
    nothing. -/

namespace ObjectTables.Regeneration

open FileTree Run

variable {directory l : Location} {tool : Tool} {sites : Sites} {t t' u v : FileTree} {p source : Path} {x : Bytes}

/-! ### What runs add -/

/-- Outside the scratch directory, a tree has become another by directories on the ways, where nothing stood, and by
    published files, where no directory stood. -/
def Onward (directory : Location) (sites : Sites) (t u : FileTree) : Prop :=
  ∀ l, ¬ target directory sites.scratchDirectory <+: l → u.get? l = t.get? l ∨
    (l ∈ sites.ways directory ∧ t.get? l = none ∧ u.get? l = some .directory) ∨
    (∃ p ∈ sites.outputs, l = target directory p) ∧ t.get? l ≠ some .directory ∧ ∃ x, u.get? l = some (.file x)

namespace Onward

theorem trans (h : Onward directory sites t u) (h' : Onward directory sites u v) : Onward directory sites t v := by
  intro l hl
  rcases h' l hl with hsame | ⟨hmem, hnone, hdir⟩ | ⟨hgoal, hoff, hfile⟩
  · rw [hsame]
    exact h l hl
  · rcases h l hl with hbefore | ⟨-, -, hdir'⟩ | ⟨-, -, x, hfile⟩
    · exact Or.inr (Or.inl ⟨hmem, hbefore ▸ hnone, hdir⟩)
    · rw [hdir'] at hnone
      cases hnone
    · rw [hfile] at hnone
      cases hnone
  · rcases h l hl with hbefore | ⟨-, -, hdir⟩ | ⟨-, hbefore, -⟩
    · exact Or.inr (Or.inr ⟨hgoal, hbefore ▸ hoff, hfile⟩)
    · exact absurd hdir hoff
    · exact Or.inr (Or.inr ⟨hgoal, hbefore, hfile⟩)

theorem of_kept (h : Kept (¬ target directory sites.scratchDirectory <+: ·) (sites.ways directory) t u) :
    Onward directory sites t u := fun l hl => (h l hl).imp_right Or.inl

theorem of_write (hp : p ∈ sites.outputs) (h : t.write directory p x = .ok u) : Onward directory sites t u := by
  intro l _
  obtain ⟨m, hwritable, -⟩ := bind_eq_ok.mp h
  obtain ⟨-, -, -, rfl, -, hfile⟩ := writable_eq_ok.mp hwritable
  rw [get?_of_write h]
  by_cases he : l = target directory p
  · exact Or.inr (Or.inr ⟨⟨p, hp, he⟩, he ▸ hfile, x, if_pos he⟩)
  · exact Or.inl (if_neg he)

theorem free (h : Onward directory sites t u) (hl : ¬ target directory sites.scratchDirectory <+: l)
    (hdir : u.get? l = some .directory) : t.Free l := by
  rcases h l hl with hsame | ⟨-, hnone, -⟩ | ⟨-, -, x, hfile⟩
  · exact Or.inr (hsame ▸ hdir)
  · exact Or.inl hnone
  · rw [hfile] at hdir
    cases hdir

theorem not_directory (h : Onward directory sites t u) (hl : ¬ target directory sites.scratchDirectory <+: l)
    (hfile : u.get? l = some (.file x)) : t.get? l ≠ some .directory := by
  rcases h l hl with hsame | ⟨-, -, hdir⟩ | ⟨-, hoff, -⟩
  · rw [← hsame, hfile]
    simp
  · rw [hfile] at hdir
    cases hdir
  · exact hoff

theorem agree_input (honward : Onward directory sites t u) (h : sites.Separated directory) (hp : p ∈ sites.inputs)
    (hreaches : t.reaches directory p = true) : Agree (target directory p :: way directory p) t u := by
  obtain ⟨-, -, hway, hsome, -⟩ := locate_eq_ok.mp (locate_of_reaches hreaches)
  have hthere : ∀ l ∈ target directory p :: way directory p, t.get? l = some .directory ∨
      (t.get? l).isSome = true ∧ l = target directory p := by
    refine List.forall_mem_cons.mpr ⟨?_, fun l hl => Or.inl (hway l hl)⟩
    by_cases hsteps : p.steps = []
    · have hstart := Publication.get?_start_of_reaches hreaches
      rw [target, hsteps]
      exact Or.inl hstart
    · exact Or.inr ⟨hsome hsteps, rfl⟩
  intro l hl
  rcases honward l (h.clear (List.mem_append_left _ hp) l hl) with hsame | ⟨-, hnone, -⟩ | ⟨⟨p', hp', he⟩, hoff, -⟩
  · exact hsame.symm
  · have hthere := hthere l hl
    rw [hnone] at hthere
    rcases hthere with hdir | ⟨hsome, -⟩
    · cases hdir
    · cases hsome
  · rcases hthere l hl with hdir | ⟨-, hself⟩
    · exact absurd hdir hoff
    · exact absurd (hself.symm.trans he) (h.input_ne hp hp')

end Onward

/-! ### What is published -/

/-- A file has been published, with the directories on its way, and nothing else has happened. -/
structure Released (directory : Location) (sites : Sites) (goal : Path) (t u : FileTree) : Prop where
  onward : Onward directory sites t u
  below : ∀ l, target directory sites.scratchDirectory <+: l → u.get? l = t.get? l
  way : ∀ l ∈ way directory goal, u.get? l = some .directory
  file : ∃ x, u.get? (target directory goal) = some (.file x)
  standing : ∀ l, t.get? l = some .directory → u.get? l = some .directory
  files : ∀ l x, l ≠ target directory goal → t.get? l = some (.file x) → u.get? l = some (.file x)

theorem released_of_write (h : sites.Separated directory) (hp : p ∈ sites.outputs)
    (hkept : Kept Everywhere (way directory p) t t') (hwrite : t'.write directory p x = .ok u) :
    Released directory sites p t u := by
  have hclear := h.clear (List.mem_append_right _ hp)
  have hget := get?_of_write hwrite
  obtain ⟨m, hwritable, -⟩ := bind_eq_ok.mp hwrite
  obtain ⟨-, -, -, rfl, hway, -⟩ := writable_eq_ok.mp hwritable
  refine ⟨(Onward.of_kept (ways_of_output hp hkept)).trans (.of_write hp hwrite), fun l hl => ?_,
    fun l hl => directory_of_write hwrite (hway l hl), ⟨x, by rw [hget, if_pos rfl]⟩,
    fun l hl => directory_of_write hwrite (hkept.get? trivial hl), fun l y hne hl => ?_⟩
  · rw [hget, if_neg (by rintro rfl; exact hclear _ List.mem_cons_self hl)]
    exact (hkept l trivial).resolve_right fun hmem => hclear l (List.mem_cons_of_mem _ hmem.1) hl
  · rw [hget, if_neg hne]
    exact hkept.get? trivial hl

theorem released_of_publish (h : sites.Separated directory) (hp : p ∈ sites.outputs)
    (hrun : (Publication.publish directory source p).run t = (.ok (), u)) :
    Released directory sites p t u ∧ ∃ text, t.readText directory source = .ok text := by
  obtain ⟨t₁, hkept, ⟨e, herror⟩ | ⟨text, t', hread, hwrite, hok⟩⟩ :=
    Publication.run_publish_cases (tidy_output hp) source t
  · rw [herror] at hrun
    cases hrun
  · rw [hok] at hrun
    cases hrun
    exact ⟨released_of_write h hp hkept hwrite, text, hread⟩

theorem released_of_copy (h : sites.Separated directory) (hp : p ∈ sites.outputs)
    (hrun : (Publication.copy directory source p).run t = (.ok (), u)) : Released directory sites p t u := by
  obtain ⟨t₁, hkept, ⟨e, herror⟩ | ⟨x, t', hwrite, hok⟩⟩ := Publication.run_copy_cases (tidy_output hp) source t
  · rw [herror] at hrun
    cases hrun
  · rw [hok] at hrun
    cases hrun
    exact released_of_write h hp hkept hwrite

/-! ### What a run leaves -/

/-- The trees that a successful run comes through when its files are ready: after each publication, after the removal
    of the scratch directory, and in the end. -/
structure Stations (directory : Location) (tool : Tool) (sites : Sites) (t ready tabled headed removed u : FileTree) :
    Prop where
  fits : Fits sites.scratchDirectory
  prepared : Onward directory sites t ready
  table : Released directory sites sites.publishedTable ready tabled
  header : Released directory sites sites.publishedHeader tabled headed
  final : ∃ text,
    tabled.readText directory (ScratchFiles.inside sites.scratchDirectory).finalHeader = .ok text
  removal : (Scratch.remove directory sites.scratchDirectory).run headed = (.ok (), removed)
  source : Released directory sites sites.publishedSource removed u

theorem run_stations (h : sites.Separated directory) (htool : tool.Confined directory) {report : Report}
    {q : Progress} (hrun : (run directory tool sites).run { tree := t } = (.ok report, q)) :
    ∃ ready tabled headed removed, Stations directory tool sites t ready tabled headed removed q.tree := by
  obtain ⟨up, n, hends⟩ := h.name
  obtain ⟨r, q₁, q₂, q₃, q₄, hclaim, hprepare, hrelease, hclose, hcopy, -⟩ := run_eq_ok hends hrun
  obtain ⟨_, q₂', htable, hheader⟩ := run_bind_eq_ok hrelease
  obtain ⟨hclaim, -⟩ := change_eq hclaim
  obtain ⟨-, hreaches⟩ := Scratch.reachesDirectory_of_claim hends.ne_nil hclaim
  obtain ⟨hfits, -⟩ := locate_eq_ok.mp (reachesDirectory_iff.mp hreaches).1
  -- until it publishes, a run changes nothing outside its scratch directory but the directories on the way to it
  have hclaimed : Onward directory sites t q₁.tree := .of_kept <|
    ((Scratch.keeps_claim directory hends).of_run hclaim).mono (fun _ hl => hl) fun l hl =>
      Sites.mem_ways.mpr (Or.inl hl)
  have hprepared : Onward directory sites q₁.tree q₂.tree := .of_kept <|
    Kept.mono ((keeps_prepare htool sites).of_run hprepare) (fun l hl hpre => absurd hpre hl) (by simp)
  obtain ⟨htable, -⟩ := released_of_publish h (by simp [Sites.outputs]) (change_eq htable).1
  obtain ⟨hheader, hfinal⟩ := released_of_publish h (by simp [Sites.outputs]) (change_eq hheader).1
  exact ⟨q₂.tree, q₂'.tree, q₃.tree, q₄.tree, hfits, hclaimed.trans hprepared, htable, hheader, hfinal,
    (change_eq hclose).1, released_of_copy h (by simp [Sites.outputs]) (change_eq hcopy).1⟩

namespace Stations

variable {ready tabled headed removed : FileTree} {up : List Name} {n : Name}

theorem reached (s : Stations directory tool sites t ready tabled headed removed u) :
    headed.reachesDirectory directory sites.scratchDirectory = true := by
  obtain ⟨text, hread⟩ := s.final
  obtain ⟨x, hread, -⟩ := readText_eq_ok.mp hread
  obtain ⟨l, hlocate, -⟩ := read_eq_ok.mp hread
  obtain ⟨-, -, hway, -⟩ := locate_eq_ok.mp hlocate
  have hinside := ScratchFiles.inside_final sites.scratchDirectory
  rw [hinside.path, way_join directory sites.scratchDirectory hinside.name] at hway
  have hdir := s.header.standing _ (hway _ (List.mem_append_right _ List.mem_cons_self))
  have hup (l : Location) (hl : l ∈ way directory sites.scratchDirectory) : headed.get? l = some .directory :=
    s.header.standing l (hway l (List.mem_append_left _ hl))
  exact reachesDirectory_iff.mpr
    ⟨locate_eq_ok.mpr ⟨s.fits, rfl, hup, fun _ => by rw [hdir]; rfl, fun _ => hdir⟩, hdir⟩

theorem removed_get? (s : Stations directory tool sites t ready tabled headed removed u)
    (hends : EndsIn sites.scratchDirectory up n) :
    removed.Free (target directory sites.scratchDirectory) ∧ ∀ l, l ≠ target directory sites.scratchDirectory →
      removed.get? l = if target directory sites.scratchDirectory <+: l then none else headed.get? l := by
  obtain ⟨t', hrun, hget⟩ := Scratch.run_remove_of_clearable hends (Or.inl s.reached)
  have hremoval := s.removal
  rw [hrun] at hremoval
  cases hremoval
  exact hget

theorem removed_of_off (s : Stations directory tool sites t ready tabled headed removed u)
    (hends : EndsIn sites.scratchDirectory up n) (hl : ¬ target directory sites.scratchDirectory <+: l) :
    removed.get? l = headed.get? l := by
  rw [(s.removed_get? hends).2 l (by rintro rfl; exact hl List.prefix_rfl), if_neg hl]

/-- At most a directory is left where the scratch directory was. -/
theorem emptied (s : Stations directory tool sites t ready tabled headed removed u)
    (hends : EndsIn sites.scratchDirectory up n) : u.Free (target directory sites.scratchDirectory) ∧
      ∀ l, target directory sites.scratchDirectory <+: l → l ≠ target directory sites.scratchDirectory →
        u.get? l = none := by
  obtain ⟨hfree, hget⟩ := s.removed_get? hends
  refine ⟨?_, fun l hpre hne => ?_⟩
  · rwa [Free, s.source.below _ List.prefix_rfl]
  · rw [s.source.below l hpre, hget l hne, if_pos hpre]

theorem onward (s : Stations directory tool sites t ready tabled headed removed u)
    (hends : EndsIn sites.scratchDirectory up n) : Onward directory sites t u := by
  have hremoved : Onward directory sites headed removed := fun l hl => Or.inl (s.removed_of_off hends hl)
  exact (((s.prepared.trans s.table.onward).trans s.header.onward).trans hremoved).trans s.source.onward

theorem stays (s : Stations directory tool sites t ready tabled headed removed u)
    (hends : EndsIn sites.scratchDirectory up n) (hl : ¬ target directory sites.scratchDirectory <+: l)
    (hdir : headed.get? l = some .directory) : u.get? l = some .directory :=
  s.source.standing l ((s.removed_of_off hends hl).trans hdir)

theorem way_output (s : Stations directory tool sites t ready tabled headed removed u) (h : sites.Separated directory)
    (hends : EndsIn sites.scratchDirectory up n) (hp : p ∈ sites.outputs) (hl : l ∈ way directory p) :
    u.get? l = some .directory := by
  have hoff := h.clear (List.mem_append_right _ hp) l (List.mem_cons_of_mem _ hl)
  simp only [Sites.outputs, List.mem_cons, List.not_mem_nil, or_false] at hp
  rcases hp with rfl | rfl | rfl
  · exact s.stays hends hoff (s.header.standing l (s.table.way l hl))
  · exact s.stays hends hoff (s.header.way l hl)
  · exact s.source.way l hl

theorem file_output (s : Stations directory tool sites t ready tabled headed removed u) (h : sites.Separated directory)
    (hends : EndsIn sites.scratchDirectory up n) (hp : p ∈ sites.outputs) :
    ∃ x, u.get? (target directory p) = some (.file x) := by
  have hoff := h.clear (List.mem_append_right _ hp) _ List.mem_cons_self
  obtain ⟨htable, htable', hheader⟩ := h.outputs_ne
  simp only [Sites.outputs, List.mem_cons, List.not_mem_nil, or_false] at hp
  rcases hp with rfl | rfl | rfl
  · obtain ⟨x, hx⟩ := s.table.file
    have hx := s.header.files _ x htable hx
    exact ⟨x, s.source.files _ x htable' ((s.removed_of_off hends hoff).trans hx)⟩
  · obtain ⟨x, hx⟩ := s.header.file
    exact ⟨x, s.source.files _ x hheader ((s.removed_of_off hends hoff).trans hx)⟩
  · exact s.source.file

/-- The way of the scratch directory is free before a run that succeeds, and after it. -/
theorem way_scratch (s : Stations directory tool sites t ready tabled headed removed u)
    (hends : EndsIn sites.scratchDirectory up n) (hclear : Scratch.Clearable directory sites.scratchDirectory t) :
    ∀ l ∈ way directory sites.scratchDirectory, t.Free l ∧ u.Free l := by
  intro l hl
  by_cases hpre : target directory sites.scratchDirectory <+: l
  · obtain ⟨hfree, hbelow⟩ := s.emptied hends
    constructor
    · rcases hclear with hreaches | ⟨hfree, hbelow⟩
      · exact Or.inr (get?_of_reachesDirectory hreaches l (List.mem_cons_of_mem _ hl))
      · by_cases he : l = target directory sites.scratchDirectory
        · exact he ▸ hfree
        · exact Or.inl (hbelow l hpre he)
    · by_cases he : l = target directory sites.scratchDirectory
      · exact he ▸ hfree
      · exact Or.inl (hbelow l hpre he)
  · have hdir := s.stays hends hpre (get?_of_reachesDirectory s.reached l (List.mem_cons_of_mem _ hl))
    exact ⟨(s.onward hends).free hpre hdir, Or.inr hdir⟩

end Stations

/-- The inputs of a run are there, or they are missing in the same way afterwards. -/
def Lasting (directory : Location) (sites : Sites) (t u : FileTree) : Prop :=
  ∀ p ∈ sites.inputs, t.reaches directory p = true ∨ Agree (target directory p :: way directory p) t u

instance (directory : Location) (sites : Sites) (t u : FileTree) : Decidable (Lasting directory sites t u) :=
  inferInstanceAs (Decidable (∀ p ∈ sites.inputs, _ ∨ Agree _ t u))

/-- A successful run leaves a twin of the tree that it started from. -/
theorem twins_of_run (h : sites.Separated directory) (htool : tool.Confined directory)
    (hclear : Scratch.Clearable directory sites.scratchDirectory t) {report : Report} {q : Progress}
    (hrun : (run directory tool sites).run { tree := t } = (.ok report, q))
    (hinputs : Lasting directory sites t q.tree) : Twins directory sites t q.tree := by
  obtain ⟨up, n, hends⟩ := h.name
  obtain ⟨ready, tabled, headed, removed, s⟩ := run_stations h htool hrun
  have honward := s.onward hends
  refine ⟨fun p hp => (hinputs p hp).elim (honward.agree_input h hp) id, hclear, Or.inr (s.emptied hends),
    List.forall_mem_cons.mpr ⟨?_, fun p hp => ?_⟩, fun p hp => ?_, fun l hoff hgoals hways => ?_⟩
  · exact Or.inl (s.way_scratch hends hclear)
  · refine Or.inl fun l hl => ?_
    have hdir := s.way_output h hends hp hl
    exact ⟨honward.free (h.clear (List.mem_append_right _ hp) l (List.mem_cons_of_mem _ hl)) hdir, Or.inr hdir⟩
  · obtain ⟨x, hfile⟩ := s.file_output h hends hp
    refine Or.inl ⟨honward.not_directory (h.clear (List.mem_append_right _ hp) _ List.mem_cons_self) hfile, ?_⟩
    rw [hfile]
    simp
  · rcases honward l hoff with hsame | ⟨hmem, -⟩ | ⟨⟨p, hp, he⟩, -⟩
    · exact hsame.symm
    · exact absurd hmem hways
    · exact absurd he (hgoals p hp)

/-! ### What a run depends on -/

/-- Two runs that have come to the same: with the same result and notices, with calls that were shown the same, with the
    same files published, and with trees that each operation has left alone in both or made the same in both. -/
structure Indistinct (directory : Location) (sites : Sites) (t u : FileTree)
    (first second : Except Failure Report × Progress) : Prop where
  result : first.1 = second.1
  echo : Echo directory first.2 second.2
  trees : ∀ l, (first.2.tree.get? l = t.get? l ∧ second.2.tree.get? l = u.get? l) ∨
    first.2.tree.get? l = second.2.tree.get? l
  published : first.1.isOk = true → ∀ p ∈ sites.outputs, ∃ x, first.2.tree.get? (target directory p) = some (.file x) ∧
    second.2.tree.get? (target directory p) = some (.file x)

/-- What a run comes to does not depend on the leftovers in the tree that it starts from. -/
theorem Twins.indistinct (h : sites.Separated directory) (htool : tool.Functional directory)
    (htwins : Twins directory sites t u) : Indistinct directory sites t u
      ((run directory tool sites).run { tree := t }) ((run directory tool sites).run { tree := u }) := by
  obtain ⟨up, n, hends⟩ := h.name
  obtain ⟨hresult, ⟨hstep, hecho⟩, hok⟩ := together_run h htool { tree := t } { tree := u } htwins
  refine ⟨hresult, hecho ⟨rfl, rfl⟩, fun l => (hstep l).imp_right And.left, fun hsuccess p hp => ?_⟩
  rcases hrun : (run directory tool sites).run { tree := t } with ⟨e | report, q⟩
  · rw [hrun] at hsuccess
    cases hsuccess
  · obtain ⟨ready, tabled, headed, removed, s⟩ := run_stations h htool.confined hrun
    obtain ⟨x, hx⟩ := s.file_output h hends hp
    have hknown := (hok hsuccess).known (target directory p) (by
      simp only [Sites.outputs, List.mem_cons, List.not_mem_nil, or_false] at hp
      rcases hp with rfl | rfl | rfl <;> simp [Regeneration.published])
    rw [hrun] at hknown
    exact ⟨x, hx, hknown ▸ hx⟩

/-- A run depends only on its inputs, and a run after a successful run comes to the same and changes nothing. -/
theorem run_depends_on_inputs (h : sites.Separated directory) (htool : tool.Functional directory) :
    (∀ t u, Twins directory sites t u → Indistinct directory sites t u
      ((run directory tool sites).run { tree := t }) ((run directory tool sites).run { tree := u })) ∧
    ∀ t report q, Scratch.Clearable directory sites.scratchDirectory t →
      (run directory tool sites).run { tree := t } = (.ok report, q) → Lasting directory sites t q.tree →
      ∃ q', (run directory tool sites).run { tree := q.tree } = (.ok report, q') ∧ Echo directory q q' ∧
        ∀ l, q'.tree.get? l = q.tree.get? l := by
  refine ⟨fun t u => Twins.indistinct h htool, fun t report q hclear hrun hinputs => ?_⟩
  have hsame := (twins_of_run h htool.confined hclear hrun hinputs).indistinct h htool
  rcases hagain : (run directory tool sites).run { tree := q.tree } with ⟨r, q'⟩
  rw [hrun, hagain] at hsame
  obtain rfl : Except.ok report = r := hsame.result
  refine ⟨q', rfl, hsame.echo, fun l => ?_⟩
  rcases hsame.trees l with ⟨-, hkept⟩ | heq
  · exact hkept
  · exact heq.symm

/-- The small system with leftovers: a file in the scratch directory, and an old symbol header. -/
def littered : FileTree :=
  let sites := Small.sites (Path.ofString "tempobj")
  (((Small.system []).put (target [] sites.scratchDirectory)
      (some (.directory [Small.file "obj_mac.new" (Bytes.ofString "Z\t\t9\n")]))).setDirectory
    (target [] sites.publishedHeader).dropLast).setFile (target [] sites.publishedHeader) (Bytes.ofString "old")

theorem twins_littered : Twins [] (Small.sites (Path.ofString "tempobj")) (Small.system []) littered := by
  have hheader : (Small.sites (Path.ofString "tempobj")).publishedHeader ∈
      (Small.sites (Path.ofString "tempobj")).outputs := by simp [Sites.outputs]
  refine ⟨by decide +kernel, Scratch.clearable_of_none (by decide +kernel), Or.inl (by decide +kernel),
    by decide +kernel, by decide +kernel, fun l hoff hgoals hways => ?_⟩
  have hup : l ≠ (target [] (Small.sites (Path.ofString "tempobj")).publishedHeader).dropLast := by
    rintro rfl
    exact hways (by decide +kernel)
  rw [littered, get?_setFile (by decide +kernel) (by decide +kernel) (by decide +kernel), if_neg (hgoals _ hheader),
    get?_setDirectory (by decide +kernel) (by decide +kernel) (by decide +kernel), if_neg hup, get?_put,
    if_neg fun h => hoff h.2.2]

/-- In the small system a run comes to the same with leftovers and without, and so does a second one. -/
theorem run_depends_on_inputs_small :
    let sites := Small.sites (Path.ofString "tempobj")
    let tool := Rehearsal.tool [] Small.plans
    Indistinct [] sites (Small.system []) littered ((run [] tool sites).run { tree := Small.system [] })
      ((run [] tool sites).run { tree := littered }) ∧
    ∃ report q q', (run [] tool sites).run { tree := littered } = (.ok report, q) ∧
      (run [] tool sites).run { tree := q.tree } = (.ok report, q') ∧ Echo [] q q' ∧
        ∀ l, q'.tree.get? l = q.tree.get? l := by
  intro sites tool
  have hsites : sites.Separated [] := by decide +kernel
  have htool : tool.Functional [] := Rehearsal.functional fun stage => by cases stage <;> rfl
  obtain ⟨hdepends, hrepeats⟩ := run_depends_on_inputs hsites htool
  refine ⟨hdepends _ _ twins_littered, ?_⟩
  have hplayed : ((run [] tool sites).run { tree := littered }).1.isOk = true ∧
      Lasting [] sites littered ((run [] tool sites).run { tree := littered }).2.tree := by decide +kernel
  rcases hrun : (run [] tool sites).run { tree := littered } with ⟨e | report, q⟩
  · rw [hrun] at hplayed
    cases hplayed.1
  · rw [hrun] at hplayed
    obtain ⟨q', hagain⟩ := hrepeats littered report q twins_littered.second hrun hplayed.2
    exact ⟨report, q, q', rfl, hagain⟩

end ObjectTables.Regeneration
