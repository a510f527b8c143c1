import ObjectTables.Proofs.Header.PlaceholderLine
import ObjectTables.Proofs.Regeneration.Conduct
import ObjectTables.Proofs.Regeneration.Containment

/-! What a run reports as missing, and what of it the published header defines. The report is made from the headers
    alone, whether the placeholders found a place or not. So each number that it names has its placeholders exactly if
    the header with the aliases closes its include guard, and the run has warned exactly if one has none
    (`run_reports_missing`). -/

namespace ObjectTables

open FileTree Run

namespace Regeneration

variable {directory : Location} {tool : Tool} {sites : Sites} {t : FileTree} {q q' : Progress}

/-! ### Warnings -/

/-- No warning of a missing guard has come in between. -/
def Unwarned (q q' : Progress) : Prop := Notice.noGuard ∈ q'.notices → Notice.noGuard ∈ q.notices

theorem Unwarned.trans (a b c : Progress) (h : Unwarned a b) (h' : Unwarned b c) : Unwarned a c := h ∘ h'

theorem unwarned_change {α : Type} (c : Change Failure α) : Keeps Unwarned (Run.change c) := fun _ => id

theorem unwarned_note {n : Notice} (h : n ≠ .noGuard) : Keeps Unwarned (Run.note n) := by
  intro q hmem
  rw [run_note] at hmem
  exact (List.mem_append.mp hmem).resolve_right fun hn => h (List.mem_singleton.mp hn).symm

theorem unwarned_generate (tool : Tool) (g : Generator) (stage : Stage) (inputs : List Path) (output : Path) :
    Keeps Unwarned (Run.generate tool g stage inputs output) := by
  have hcall : Keeps Unwarned (modify fun p : Progress =>
      { p with calls := p.calls ++ [⟨g.call stage inputs output, p.tree⟩] } : Run Unit) := fun _ => id
  refine hcall.bind Unwarned.trans fun _ => (unwarned_change _).bind Unwarned.trans fun completion => ?_
  have hrest : Keeps Unwarned (do Run.note (.generated stage output); return completion) :=
    (unwarned_note (by simp)).bind Unwarned.trans fun _ => Keeps.pure (fun _ => id) _
  dsimp only
  split
  · exact (unwarned_note (by simp)).bind Unwarned.trans fun _ => hrest
  · exact hrest

theorem unwarned_trimNumbering (directory : Location) (tool : Tool) (sites : Sites) (files : ScratchFiles) :
    Keeps Unwarned (trimNumbering directory tool sites files) :=
  (unwarned_generate _ _ _ _ _).bind Unwarned.trans fun _ => (unwarned_change _).bind Unwarned.trans fun _ =>
    (unwarned_change _).bind Unwarned.trans fun _ => (unwarned_change _).bind Unwarned.trans fun _ =>
    Keeps.pure (fun _ => id) _

/-! ### The report -/

/-- The texts that the missing numbers are found in: the full header, the generated header and the aliases, as the
    last call has left their files. -/
def Compared (directory : Location) (tool : Tool) (sites : Sites) (calls : List CallRecord)
    (full header compat : Text) : Prop :=
  ∃ r, calls.getLast? = some r ∧
    (r.left tool).Holds (target directory sites.fullHeader) full ∧
    (r.left tool).Holds (target directory (ScratchFiles.inside sites.scratchDirectory).header) header ∧
    (r.left tool).Holds (target directory sites.compatHeader) compat

theorem prepare_reports (h : sites.Separated directory) {report : Report}
    (hrun : (prepare directory tool sites (.inside sites.scratchDirectory)).run q = (.ok report, q')) :
    ∃ full header compat, Compared directory tool sites q'.calls full header compat ∧
      report.missing = (Header.complete full (Header.appendAliases header compat)).missing ∧
      q'.tree.get? (target directory (ScratchFiles.inside sites.scratchDirectory).finalHeader) =
        some (.file (Header.complete full (Header.appendAliases header compat)).text.encode) ∧
      (Notice.noGuard ∉ q.notices → (Notice.noGuard ∈ q'.notices ↔
        Header.lacksGuard full (Header.appendAliases header compat) = true)) := by
  obtain ⟨_, q₁, hseed, hrun₁⟩ := run_bind_eq_ok hrun
  obtain ⟨numberings, q₂, htrim, hrun₂⟩ := run_bind_eq_ok hrun₁
  obtain ⟨_, q₃, hnote, hrun₃⟩ := run_bind_eq_ok hrun₂
  obtain ⟨_, q₄, hheader, hrun₄⟩ := run_bind_eq_ok hrun₃
  obtain ⟨_, q₅, htable, hrun₅⟩ := run_bind_eq_ok hrun₄
  obtain ⟨missing, q₆, hcomplete, hrun₆⟩ := run_bind_eq_ok hrun₅
  cases hrun₆
  have hunwarned : Unwarned q q₅ :=
    Unwarned.trans _ _ _ ((unwarned_change _).of_run hseed) <|
    Unwarned.trans _ _ _ ((unwarned_trimNumbering directory tool sites _).of_run htrim) <|
    Unwarned.trans _ _ _ ((unwarned_note (by simp)).of_run hnote) <|
    Unwarned.trans _ _ _ ((unwarned_generate _ _ _ _ _).of_run hheader) ((unwarned_generate _ _ _ _ _).of_run htable)
  obtain ⟨htool, hcalls⟩ := generate_eq_ok htable
  obtain ⟨header, compat, full, hholds, hcompat, hfull, hcalls₆, hfinal, -, hmissing, hnotices⟩ :=
    completeHeader_eq_ok h hcomplete
  refine ⟨full, header, compat, ⟨_, by rw [hcalls₆, hcalls, List.getLast?_concat], ?_⟩, hmissing, hfinal, fun hq => ?_⟩
  · rw [CallRecord.left, htool]
    exact ⟨hfull, hholds, hcompat⟩
  · rw [hnotices]
    exact or_iff_right fun hmem => hq (hunwarned hmem)

/-- What is published as the symbol header is the published form of what was made ready. -/
theorem release_publishes (h : sites.Separated directory) {text : Text}
    (hfinal : q.tree.get? (target directory (ScratchFiles.inside sites.scratchDirectory).finalHeader) =
      some (.file text.encode))
    (hrun : (release directory sites (.inside sites.scratchDirectory)).run q = (.ok (), q')) :
    q'.tree.readText directory sites.publishedHeader = .ok text.published ∧ q'.calls = q.calls ∧
      q'.notices = q.notices := by
  have htable : sites.publishedTable ∈ sites.outputs := by simp [Sites.outputs]
  have hheader : sites.publishedHeader ∈ sites.outputs := by simp [Sites.outputs]
  obtain ⟨_, q₁, hrun₁, hrun₂⟩ := run_bind_eq_ok hrun
  have hnotices : q'.notices = q.notices := by rw [notices_of_change hrun₂, notices_of_change hrun₁]
  obtain ⟨hrun₁, hcalls₁⟩ := change_eq hrun₁
  obtain ⟨hrun₂, hcalls₂⟩ := change_eq hrun₂
  refine ⟨?_, by rw [hcalls₂, hcalls₁], hnotices⟩
  obtain ⟨u₁, hkept₁, ⟨e, he⟩ | ⟨table, v₁, -, hwrite₁, hok₁⟩⟩ := Publication.run_publish_cases
    (tidy_output htable) (ScratchFiles.inside sites.scratchDirectory).lookupTable q.tree
  · rw [he] at hrun₁
    cases hrun₁
  obtain ⟨u₂, -, ⟨e, he⟩ | ⟨text', v₂, hread, hwrite₂, hok₂⟩⟩ := Publication.run_publish_cases
    (tidy_output hheader) (ScratchFiles.inside sites.scratchDirectory).finalHeader q₁.tree
  · rw [he] at hrun₂
    cases hrun₂
  rw [hok₁] at hrun₁
  rw [hok₂] at hrun₂
  obtain ⟨-, hv₁⟩ := Prod.mk.inj hrun₁
  obtain ⟨-, hv₂⟩ := Prod.mk.inj hrun₂
  -- the publication of the table has left the completed header as it was
  obtain rfl : text' = text := by
    refine (holds_of_readText hread).eq_of_get? ?_
    have hoff : target directory (ScratchFiles.inside sites.scratchDirectory).finalHeader ≠
        target directory sites.publishedTable := by
      intro he
      refine h.clear (List.mem_append_right _ htable) _ List.mem_cons_self ?_
      rw [← he, (ScratchFiles.inside_final sites.scratchDirectory).target_eq]
      exact List.prefix_append _ _
    rw [← hv₁, get?_of_write hwrite₁, if_neg hoff]
    exact hkept₁.get? trivial hfinal
  rw [← hv₂]
  exact readText_of_write hwrite₂

/-- What a run does once it has published does not concern the symbol header. -/
theorem copy_keeps (h : sites.Separated directory) {text : Text} {u : FileTree}
    (hread : t.readText directory sites.publishedHeader = .ok text)
    (hrun : (Publication.copy directory sites.dataSource sites.publishedSource).run t = (.ok (), u)) :
    u.readText directory sites.publishedHeader = .ok text := by
  have hsource : sites.publishedSource ∈ sites.outputs := by simp [Sites.outputs]
  have hcases : ∃ t₁, Kept Everywhere (way directory sites.publishedSource) t t₁ ∧ _ :=
    Publication.run_copy_cases (tidy_output hsource) sites.dataSource t
  obtain ⟨t₁, hkept, ⟨e, he⟩ | ⟨y, t', hwrite, hok⟩⟩ := hcases
  · rw [he] at hrun
    cases hrun
  · rw [hok] at hrun
    cases hrun
    obtain ⟨x, hx, htext⟩ := readText_eq_ok.mp (hkept.readText (fun _ _ => trivial) hread)
    exact readText_eq_ok.mpr ⟨x, read_of_write_elsewhere hwrite h.outputs_ne.2.2 hx, htext⟩

/-- A run reports as missing what the header with the aliases lacks of the full one. Each number that it reports has
    its placeholders in the published header exactly if that header closes its include guard, and if numbers are
    reported, the run has warned exactly if it does not. -/
theorem run_reports_missing (h : sites.Separated directory) {report : Report} {p : Progress}
    (hrun : (run directory tool sites).run { tree := t } = (.ok report, p)) :
    ∃ full header compat published, Compared directory tool sites p.calls full header compat ∧
      report.missing = Header.missingNumbers full (Header.appendAliases header compat) ∧
      p.tree.readText directory sites.publishedHeader = .ok published ∧
      (∀ n ∈ report.missing,
        Header.HasPlaceholder published n ↔ Header.Guarded (Header.appendAliases header compat)) ∧
      (Notice.noGuard ∈ p.notices ↔ report.missing ≠ [] ∧ ¬Header.Guarded (Header.appendAliases header compat)) := by
  obtain ⟨up, n, hends⟩ := h.name
  have hheader : sites.publishedHeader ∈ sites.outputs := by simp [Sites.outputs]
  obtain ⟨r, q₁, q₂, q₃, q₄, hclaim, hprepare, hrelease, hclose, hcopy, rfl⟩ := run_eq_ok hends hrun
  have hnotices₁ := notices_of_change hclaim
  have hnotices₄ : p.notices = q₃.notices := by rw [notices_of_change hcopy, notices_of_change hclose]
  obtain ⟨hclose, hcalls₃⟩ := change_eq hclose
  obtain ⟨hcopy, hcalls₄⟩ := change_eq hcopy
  obtain ⟨full, header, compat, hcompared, hmissing, hfinal, hwarned⟩ := prepare_reports h hprepare
  obtain ⟨hread, hcalls₂, hnotices₂⟩ := release_publishes h hfinal hrelease
  -- neither the removal of the scratch directory nor the copy touches the symbol header
  have hkept := (Scratch.keeps_remove directory hends).of_run hclose
  have hread₃ := hkept.readText (h.clear (List.mem_append_right _ hheader)) hread
  refine ⟨full, header, compat, _, by rwa [hcalls₄, hcalls₃, hcalls₂], hmissing, copy_keeps h hread₃ hcopy,
    fun n hn => Header.hasPlaceholder_iff (hmissing ▸ hn), ?_⟩
  rw [hnotices₄, hnotices₂, hwarned (by simp [hnotices₁]), Header.lacksGuard_iff]
  show _ ↔ r.missing ≠ [] ∧ _
  rw [hmissing]

/-- The plans of a generator whose header does not close its include guard. -/
def unguarded : Rehearsal.Plans where
  numbering := .printing Small.texts.numbering
  header := .printing (Small.ascii "#define NID_A 0\n")
  lookupTable := .printing Small.texts.lookupTable

/-- A run in the small system. -/
def smallRun (plans : Rehearsal.Plans) : Except Failure Report × Progress :=
  (run [] (Rehearsal.tool [] plans) (Small.sites (Path.ofString "tempobj"))).run { tree := Small.system [] }

/-- In the small system, with a header that closes its include guard, the number that is reported has its
    placeholders. -/
theorem run_reports_missing_small : ∃ report p published, smallRun Small.plans = (.ok report, p) ∧
    report.missing = [Small.ascii "NID_B"] ∧
    p.tree.readText [] (Small.sites (Path.ofString "tempobj")).publishedHeader = .ok published ∧
    Header.HasPlaceholder published (Small.ascii "NID_B") ∧ Notice.noGuard ∉ p.notices := by
  have hplayed : (smallRun Small.plans).1.toOption.map Report.missing = some [Small.ascii "NID_B"] ∧
      Notice.noGuard ∉ (smallRun Small.plans).2.notices := by decide +kernel
  obtain ⟨hreport, hunwarned⟩ := hplayed
  rcases hrun : smallRun Small.plans with ⟨e | report, p⟩
  · rw [hrun] at hreport
    cases hreport
  rw [hrun] at hreport hunwarned
  have hmissing : report.missing = [Small.ascii "NID_B"] := Option.some.inj hreport
  obtain ⟨full, header, compat, published, -, -, hread, hplaceholders, hwarned⟩ :=
    run_reports_missing (by decide +kernel) hrun
  refine ⟨report, p, published, rfl, hmissing, hread, (hplaceholders _ (by simp [hmissing])).mpr ?_, hunwarned⟩
  by_cases hguarded : Header.Guarded (Header.appendAliases header compat)
  · exact hguarded
  · exact absurd (hwarned.mpr ⟨by simp [hmissing], hguarded⟩) hunwarned

/-- In the small system, with a header that does not close its include guard, a run succeeds and reports a number that
    the published header does not define. -/
theorem reported_without_placeholder : Sites.Separated [] (Small.sites (Path.ofString "tempobj")) ∧
    ∃ report p published, smallRun unguarded = (.ok report, p) ∧ Small.ascii "NID_B" ∈ report.missing ∧
      p.tree.readText [] (Small.sites (Path.ofString "tempobj")).publishedHeader = .ok published ∧
      ¬Header.HasPlaceholder published (Small.ascii "NID_B") := by
  have hplayed : (smallRun unguarded).1.toOption.map Report.missing = some [Small.ascii "NID_B"] ∧
      (smallRun unguarded).2.tree.readText [] (Small.sites (Path.ofString "tempobj")).publishedHeader =
        .ok (Small.ascii "#define NID_A 0\r\n") := by decide +kernel
  refine ⟨by decide +kernel, ?_⟩
  rcases hrun : smallRun unguarded with ⟨e | report, p⟩
  · rw [hrun] at hplayed
    cases hplayed.1
  rw [hrun] at hplayed
  have hmissing : report.missing = [Small.ascii "NID_B"] := Option.some.inj hplayed.1
  exact ⟨report, p, _, rfl, by simp [hmissing], hplayed.2, by decide +kernel⟩

end Regeneration

end ObjectTables
