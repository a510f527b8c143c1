import ObjectTables.Command.Execution
import ObjectTables.Proofs.Regeneration.Protocol
import ObjectTables.Proofs.Tool.Launch
import ObjectTables.Proofs.Tool.Rehearsal

/-! What the command shows of a run: its exit code, the files that it names and what it writes to standard error. It
    ends with zero exactly if the run has succeeded and each published file can be read back, and names these files
    then, in order. If a process has ended without success, the command ends as it did and repeats what it wrote to
    standard error; for any other failure it ends with one and repeats nothing (`perform_shows_run`). -/

namespace ObjectTables

open FileTree Run

/-! ### Results -/

/-- What holds of the result of a part that succeeds. -/
def Run.Returns {α : Type} (P : α → Prop) (x : Run α) : Prop := ∀ q a q', x.run q = (.ok a, q') → P a

namespace Run.Returns

variable {α β : Type} {P : α → Prop}

theorem pure {a : α} (h : P a) : Returns P (Pure.pure a : Run α) := by
  intro q b q' hrun
  cases hrun
  exact h

theorem bind {x : Run β} {f : β → Run α} (h : ∀ b, Returns P (f b)) : Returns P (x >>= f) := by
  intro q a q' hrun
  obtain ⟨b, q₁, -, hf⟩ := run_bind_eq_ok hrun
  exact h b _ _ _ hf

theorem bind_of {Q : β → Prop} {x : Run β} {f : β → Run α} (hx : Returns Q x) (h : ∀ b, Q b → Returns P (f b)) :
    Returns P (x >>= f) := by
  intro q a q' hrun
  obtain ⟨b, q₁, hb, hf⟩ := run_bind_eq_ok hrun
  exact h b (hx _ _ _ hb) _ _ _ hf

theorem under {x : Run α} (h : Returns P x) (directory : Location) (claim : ScratchClaim) :
    Returns P (Run.under directory claim x) :=
  fun q a q' hrun => h q a q' (run_under_eq_ok hrun)

end Run.Returns

namespace Regeneration

variable {directory : Location} {tool : Tool} {sites : Sites} {t : FileTree}

theorem returns_prepare (directory : Location) (tool : Tool) (sites : Sites) (files : ScratchFiles) :
    Returns (fun r : Report =>
      r.products = [⟨.lookupTable, sites.publishedTable⟩, ⟨.symbolHeader, sites.publishedHeader⟩])
      (prepare directory tool sites files) := by
  rw [prepare]
  refine Returns.bind fun _ => Returns.bind fun _ => Returns.bind fun _ => Returns.bind fun _ => ?_
  exact Returns.bind fun _ => Returns.bind fun _ => Returns.pure rfl

/-- A successful run publishes the lookup table, the symbol header and the source file, in this order. -/
theorem returns_run (directory : Location) (tool : Tool) (sites : Sites) :
    Returns (fun r : Report => r.products = [⟨.lookupTable, sites.publishedTable⟩,
      ⟨.symbolHeader, sites.publishedHeader⟩, ⟨.dataSource, sites.publishedSource⟩]) (run directory tool sites) := by
  rw [run]
  refine Returns.bind fun claim => ?_
  have hwork : Returns (fun r : Report =>
      r.products = [⟨.lookupTable, sites.publishedTable⟩, ⟨.symbolHeader, sites.publishedHeader⟩])
      (work directory tool sites (.inside claim.path)) := by
    rw [work_eq]
    exact (returns_prepare directory tool sites _).bind_of fun r hr => Returns.bind fun _ => Returns.pure hr
  refine (hwork.under directory claim).bind_of fun r hr => Returns.bind fun _ => Returns.bind fun _ => ?_
  refine Returns.pure ?_
  simp [hr]

/-- The calls of a run, as far as they succeed or fail. -/
theorem conducted_run (directory : Location) (tool : Tool) (sites : Sites) (t : FileTree) :
    Conducted tool (script sites) ((run directory tool sites).run ⟨t, [], []⟩).1
      ((run directory tool sites).run ⟨t, [], []⟩).2.calls := by
  obtain ⟨made, hcalls, hconducted⟩ := makes_run directory tool sites ⟨t, [], []⟩
  have hmade : ((run directory tool sites).run ⟨t, [], []⟩).2.calls = made := hcalls
  rwa [hmade]

end Regeneration

namespace Command

variable {directory : Location} {launch : Launch} {options : Options} {t : FileTree} {ps : List Product}

/-! ### Lines -/

/-- Whether a line is none of the log. -/
def Line.isPlain : Line → Bool
  | .plain _ => true
  | .log .. => false

/-- The lines on standard output that are none of the log. -/
def Outcome.plain (o : Outcome) : List Line := o.stdout.filter Line.isPlain

/-- The line about a published file with some content. -/
def wrote (path : Path) (content : Bytes) : Line :=
  let shown := Path.display path
  let digest := String.ofList (Digest.short content)
  .plain s!"Wrote {shown} ({digest})"

theorem plain_noticeLines (verbosity : Nat) (notices : List Notice) :
    (noticeLines verbosity notices).filter Line.isPlain = [] := by
  rw [List.filter_eq_nil_iff]
  intro line hline
  obtain ⟨n, -, rfl⟩ := List.mem_map.mp hline
  simp [Line.isPlain]

theorem productLines_of_read {content : Path → Bytes}
    (h : ∀ p ∈ ps, t.read directory p.path = .ok (content p.path)) :
    productLines directory t ps = (ps.map fun p => wrote p.path (content p.path), none) := by
  induction ps with
  | nil => rfl
  | cons p ps ih =>
    obtain ⟨hp, hps⟩ := List.forall_mem_cons.mp h
    simp only [productLines, hp, ih hps]
    rfl

theorem productLines_of_unread (h : ¬∀ p ∈ ps, ∃ x, t.read directory p.path = .ok x) :
    ∃ failed, (productLines directory t ps).2 = some failed := by
  induction ps with
  | nil => simp at h
  | cons p ps ih =>
    cases hp : t.read directory p.path with
    | error cause =>
      simp only [productLines, hp]
      exact ⟨_, rfl⟩
    | ok x =>
      have hps : ¬∀ p ∈ ps, ∃ x, t.read directory p.path = .ok x := fun hps =>
        h (List.forall_mem_cons.mpr ⟨⟨x, hp⟩, hps⟩)
      simpa only [productLines, hp] using ih hps

/-- If each published file can be read back, the lines name it with what it holds. -/
theorem reportLines_of_read {r : Report} {content : Path → Bytes} (verbosity : Nat)
    (h : ∀ p ∈ r.products, t.read directory p.path = .ok (content p.path)) :
    (reportLines directory verbosity t r).2 = true ∧
      (reportLines directory verbosity t r).1.filter Line.isPlain =
        r.products.map fun p => wrote p.path (content p.path) := by
  have hwrote : (r.products.map fun p => wrote p.path (content p.path)).filter Line.isPlain =
      r.products.map fun p => wrote p.path (content p.path) := by
    rw [List.filter_eq_self]
    intro line hline
    obtain ⟨p, -, rfl⟩ := List.mem_map.mp hline
    rfl
  rw [reportLines, productLines_of_read h]
  refine ⟨rfl, ?_⟩
  rw [List.filter_append, hwrote]
  split
  · exact List.append_nil _
  · exact List.append_nil _

theorem reportLines_of_unread {r : Report} (verbosity : Nat)
    (h : ¬∀ p ∈ r.products, ∃ x, t.read directory p.path = .ok x) :
    (reportLines directory verbosity t r).2 = false := by
  obtain ⟨failed, hfailed⟩ := productLines_of_unread h
  rcases hlines : productLines directory t r.products with ⟨lines, end?⟩
  rw [hlines] at hfailed
  obtain rfl : end? = some failed := hfailed
  rw [reportLines, hlines]

/-! ### The command -/

/-- The run that some options ask for. -/
def attempt (directory : Location) (launch : Launch) (options : Options) (t : FileTree) :
    Except Failure Report × Progress :=
  (Regeneration.run directory (launch.tool directory) options.sites).run { tree := t }

/-- The calls that the command makes: none without a root. -/
def calls (directory : Location) (launch : Launch) (options : Options) (t : FileTree) : List CallRecord :=
  if t.reachesDirectory directory options.root then (attempt directory launch options t).2.calls else []

/-- Each published file of a report can be read back. -/
def Readable (directory : Location) (t : FileTree) (r : Report) : Prop :=
  ∀ p ∈ r.products, ∃ x, t.read directory p.path = .ok x

/-- The four ways in which the command can end. -/
inductive Course (directory : Location) (launch : Launch) (options : Options) (t : FileTree) (outcome : Outcome)
    (after : FileTree) : Prop
  | noRoot (hroot : ¬t.reachesDirectory directory options.root = true) (hexit : outcome.exit = 1)
      (hplain : outcome.plain = []) (hstderr : outcome.stderr = [])
  | failed (hroot : t.reachesDirectory directory options.root = true) (f : Failure)
      (hresult : (attempt directory launch options t).1 = .error f) (hexit : outcome.exit = f.exitCode)
      (hplain : outcome.plain = []) (hstderr : outcome.stderr = stderrOf f)
  | unread (hroot : t.reachesDirectory directory options.root = true) (report : Report)
      (hresult : (attempt directory launch options t).1 = .ok report)
      (hread : ¬Readable directory (attempt directory launch options t).2.tree report)
      (hexit : outcome.exit = 1) (hstderr : outcome.stderr = [])
  | complete (hroot : t.reachesDirectory directory options.root = true) (report : Report)
      (hresult : (attempt directory launch options t).1 = .ok report)
      (hread : Readable directory (attempt directory launch options t).2.tree report)
      (hexit : outcome.exit = 0) (hafter : after = (attempt directory launch options t).2.tree)
      (hplain : ∀ content : Path → Bytes, (∀ p ∈ report.products, after.read directory p.path = .ok (content p.path)) →
        outcome.plain = report.products.map fun p => wrote p.path (content p.path))

theorem course_execute (directory : Location) (launch : Launch) (options : Options) (t : FileTree) :
    Course directory launch options t (execute directory launch options t).1
      (execute directory launch options t).2 := by
  by_cases hroot : t.reachesDirectory directory options.root = true
  · rcases hattempt : attempt directory launch options t with ⟨f | report, p⟩
    · have hexecute : execute directory launch options t = (⟨f.exitCode,
          noticeLines options.verbosity p.notices ++ [failureLine options.root f], stderrOf f⟩, p.tree) := by
        rw [attempt] at hattempt
        rw [execute, if_neg (by simp [hroot]), hattempt]
      rw [hexecute]
      refine .failed hroot f (by rw [hattempt]) rfl ?_ rfl
      rw [Outcome.plain, List.filter_append, plain_noticeLines]
      rfl
    · have hexecute : execute directory launch options t =
          (⟨if (reportLines directory options.verbosity p.tree report).2 then 0 else Failure.genericExitCode,
            noticeLines options.verbosity p.notices ++ (reportLines directory options.verbosity p.tree report).1, []⟩,
            p.tree) := by
        rw [attempt] at hattempt
        rw [execute, if_neg (by simp [hroot]), hattempt]
      rw [hexecute]
      by_cases hread : Readable directory p.tree report
      · obtain ⟨content, hcontent⟩ : ∃ content : Path → Bytes, ∀ q ∈ report.products,
            p.tree.read directory q.path = .ok (content q.path) := by
          refine ⟨fun path => (p.tree.read directory path).toOption.getD [], fun q hq => ?_⟩
          obtain ⟨x, hx⟩ := hread q hq
          simp only [hx, Except.toOption, Option.getD_some]
        obtain ⟨hcomplete, -⟩ := reportLines_of_read options.verbosity hcontent
        refine .complete hroot report (by rw [hattempt]) (by rwa [hattempt]) ?_ (by rw [hattempt]) fun content h => ?_
        · exact if_pos hcomplete
        · obtain ⟨-, hplain⟩ := reportLines_of_read options.verbosity h
          rw [Outcome.plain, List.filter_append, plain_noticeLines, List.nil_append, hplain]
      · have hincomplete := reportLines_of_unread options.verbosity hread
        refine .unread hroot report (by rw [hattempt]) (by rwa [hattempt]) ?_ rfl
        exact if_neg (by rw [hincomplete]; exact Bool.false_ne_true)
  · have hexecute : ∃ line, execute directory launch options t =
        (⟨Failure.genericExitCode, [.log .error line], []⟩, t) := by
      rw [execute, if_pos (by simpa using hroot)]
      exact ⟨_, rfl⟩
    obtain ⟨line, hexecute⟩ := hexecute
    rw [hexecute]
    exact .noRoot hroot rfl rfl rfl

namespace Course

variable {outcome : Outcome} {after : FileTree} {f : Failure}

theorem of_error (h : Course directory launch options t outcome after)
    (hroot : t.reachesDirectory directory options.root = true)
    (hf : (attempt directory launch options t).1 = .error f) :
    outcome.exit = f.exitCode ∧ outcome.stderr = stderrOf f := by
  cases h with
  | noRoot hno => exact absurd hroot hno
  | failed _ f' hresult hexit _ hstderr =>
    rw [hresult] at hf
    cases hf
    exact ⟨hexit, hstderr⟩
  | unread _ report hresult =>
    rw [hresult] at hf
    cases hf
  | complete _ report hresult =>
    rw [hresult] at hf
    cases hf

theorem exit_eq_zero_iff (h : Course directory launch options t outcome after) :
    outcome.exit = 0 ↔ t.reachesDirectory directory options.root = true ∧
      ∃ report, (attempt directory launch options t).1 = .ok report ∧
        Readable directory (attempt directory launch options t).2.tree report := by
  cases h with
  | noRoot hroot hexit =>
    rw [hexit]
    exact iff_of_false (by decide) fun hall => hroot hall.1
  | failed hroot f hresult hexit =>
    have hpos := f.exitCode_pos
    refine iff_of_false (by omega) ?_
    rintro ⟨-, report, hreport, -⟩
    rw [hresult] at hreport
    cases hreport
  | unread hroot report hresult hread hexit =>
    rw [hexit]
    refine iff_of_false (by decide) ?_
    rintro ⟨-, report', hreport, hread'⟩
    rw [hresult] at hreport
    cases hreport
    exact hread hread'
  | complete hroot report hresult hread hexit => exact iff_of_true hexit ⟨hroot, report, hresult, hread⟩

/-- A command that ends with zero names the three published files, with what they hold. -/
theorem written (h : Course directory launch options t outcome after) (hzero : outcome.exit = 0) :
    ∃ table header source,
      after.read directory options.sites.publishedTable = .ok table ∧
      after.read directory options.sites.publishedHeader = .ok header ∧
      after.read directory options.sites.publishedSource = .ok source ∧
      outcome.plain = [wrote options.sites.publishedTable table, wrote options.sites.publishedHeader header,
        wrote options.sites.publishedSource source] := by
  cases h with
  | noRoot hroot hexit => omega
  | failed hroot f hresult hexit =>
    have hpos := f.exitCode_pos
    omega
  | unread hroot report hresult hread hexit => omega
  | complete hroot report hresult hread hexit hafter hplain =>
    have hproducts := Regeneration.returns_run directory (launch.tool directory) options.sites _ _ _
      (Prod.ext hresult rfl)
    rw [Readable, ← hafter, hproducts] at hread
    obtain ⟨⟨table, htable⟩, ⟨header, hheader⟩, ⟨source, hsource⟩⟩ :
        (∃ x, after.read directory options.sites.publishedTable = .ok x) ∧
        (∃ x, after.read directory options.sites.publishedHeader = .ok x) ∧
        ∃ x, after.read directory options.sites.publishedSource = .ok x := by simpa using hread
    have hlines := hplain (fun path => (after.read directory path).toOption.getD []) (by
      rw [hproducts]
      simp [htable, hheader, hsource, Except.toOption])
    refine ⟨table, header, source, htable, hheader, hsource, ?_⟩
    rw [hlines, hproducts]
    simp [htable, hheader, hsource, Except.toOption]

/-- A call that fails decides how the command ends. -/
theorem of_failed_call (h : Course directory launch options t outcome after) {c : CallRecord}
    (hc : c ∈ calls directory launch options t) (hf : c.result (launch.tool directory) = .error f) :
    outcome.exit = f.exitCode ∧ outcome.stderr = stderrOf f := by
  rw [calls] at hc
  split at hc
  · next hroot =>
    obtain ⟨i, hi⟩ := List.mem_iff_getElem?.mp hc
    have hconducted := Regeneration.conducted_run directory (launch.tool directory) options.sites t
    obtain ⟨-, herror⟩ := hconducted.fails i c f hi hf
    exact h.of_error hroot herror
  · cases hc

end Course

theorem exitCode_of_not_tool {f : Failure} (h : f.stderr? = none) : f.exitCode = 1 ∧ stderrOf f = [] := by
  cases f with
  | tool program code stderr => cases h
  | _ => exact ⟨rfl, rfl⟩

/-- A run that no process has failed by an exit code of its own makes the command exit with one. -/
theorem exitCode_of_error {f : Failure} (hroot : t.reachesDirectory directory options.root = true)
    (h : (attempt directory launch options t).1 = .error f)
    (hzero : ∀ c ∈ calls directory launch options t, ∀ status stderr,
      c.Ended launch directory (.exited status) stderr → status = 0) :
    f.exitCode = 1 ∧
      ((∀ c ∈ calls directory launch options t, ∀ stderr, ¬c.Ended launch directory .killed stderr) →
        stderrOf f = []) := by
  cases htool : f.stderr? with
  | none =>
    obtain ⟨hexit, hstderr⟩ := exitCode_of_not_tool htool
    exact ⟨hexit, fun _ => hstderr⟩
  | some said =>
    obtain ⟨program, code, stderr, rfl⟩ : ∃ program code stderr, f = .tool program code stderr := by
      cases f with
      | tool program code stderr => exact ⟨program, code, stderr, rfl⟩
      | _ => cases htool
    have hconducted := Regeneration.conducted_run directory (launch.tool directory) options.sites t
    obtain ⟨c, hc, hresult⟩ := hconducted.blames _ h rfl
    have hmem : c ∈ calls directory launch options t := by
      rw [calls, if_pos hroot]
      exact hc
    obtain ⟨ending, stderr, hended, -, hcode⟩ := CallRecord.ended_of_result hresult
    rcases hcode with ⟨status, rfl, hstatus, -⟩ | ⟨rfl, rfl⟩
    · exact absurd (hzero c hmem status stderr hended) hstatus
    · exact ⟨rfl, fun hnone => absurd hended (hnone c hmem stderr)⟩

/-- What the command shows of a run with some options. -/
structure Shows (directory : Location) (launch : Launch) (options : Options) (t : FileTree) (outcome : Outcome)
    (after : FileTree) : Prop where
  /-- The command succeeds if the root is a directory, the run succeeds and each published file can be read back. -/
  succeeds : outcome.exit = 0 ↔ t.reachesDirectory directory options.root = true ∧
    ∃ report, (attempt directory launch options t).1 = .ok report ∧
      Readable directory (attempt directory launch options t).2.tree report
  /-- It names each published file then, with what it holds in the end. -/
  written : outcome.exit = 0 → ∃ table header source,
    after.read directory options.sites.publishedTable = .ok table ∧
    after.read directory options.sites.publishedHeader = .ok header ∧
    after.read directory options.sites.publishedSource = .ok source ∧
    outcome.plain = [wrote options.sites.publishedTable table, wrote options.sites.publishedHeader header,
      wrote options.sites.publishedSource source]
  /-- A process that exits with another code than zero gives it to the command, with its standard error. -/
  exited : ∀ c ∈ calls directory launch options t, ∀ status stderr,
    c.Ended launch directory (.exited status) stderr → status ≠ 0 →
      outcome.exit = status.toNat ∧ outcome.stderr = Header.endLine (Bytes.decodeLossy stderr)
  /-- A process that is killed makes the command exit with one. -/
  killed : ∀ c ∈ calls directory launch options t, ∀ stderr, c.Ended launch directory .killed stderr →
    outcome.exit = 1 ∧ outcome.stderr = Header.endLine (Bytes.decodeLossy stderr)
  /-- So does any other failure, with nothing on standard error. -/
  fails : outcome.exit ≠ 0 →
    (∀ c ∈ calls directory launch options t, ∀ status stderr,
      c.Ended launch directory (.exited status) stderr → status = 0) →
    outcome.exit = 1 ∧
      ((∀ c ∈ calls directory launch options t, ∀ stderr, ¬c.Ended launch directory .killed stderr) →
        outcome.stderr = [])
  /-- A run that fails is never passed off as a success, and no file is named. -/
  failed : ∀ f, (attempt directory launch options t).1 = .error f → outcome.exit ≠ 0 ∧ outcome.plain = []

theorem shows_of_course {outcome : Outcome} {after : FileTree} (h : Course directory launch options t outcome after) :
    Shows directory launch options t outcome after where
  succeeds := h.exit_eq_zero_iff
  written := h.written
  exited := by
    intro c hc status stderr hended hstatus
    have hresult := CallRecord.result_of_ended hended
    rw [CallRecord.verdict, if_neg hstatus] at hresult
    obtain ⟨hexit, hstderr⟩ := h.of_failed_call hc hresult
    have hpos : (0 : Int) < status.toNat := by
      have hne : status.toNat ≠ 0 := fun hzero => hstatus (UInt8.toNat_inj.mp hzero)
      omega
    rw [Failure.exitCode, if_pos hpos] at hexit
    exact ⟨hexit, hstderr⟩
  killed := by
    intro c hc stderr hended
    exact h.of_failed_call hc (CallRecord.result_of_ended hended)
  fails := by
    intro hne hzero
    cases h with
    | noRoot hroot hexit hplain hstderr => exact ⟨hexit, fun _ => hstderr⟩
    | failed hroot f hresult hexit hplain hstderr =>
      rw [hexit, hstderr]
      exact exitCode_of_error hroot hresult hzero
    | unread hroot report hresult hread hexit hstderr => exact ⟨hexit, fun _ => hstderr⟩
    | complete hroot report hresult hread hexit => exact absurd hexit hne
  failed := by
    intro f hf
    cases h with
    | noRoot hroot hexit hplain => exact ⟨by omega, hplain⟩
    | failed hroot f' hresult hexit hplain =>
      have hpos := f'.exitCode_pos
      exact ⟨by omega, hplain⟩
    | unread hroot report hresult =>
      rw [hresult] at hf
      cases hf
    | complete hroot report hresult =>
      rw [hresult] at hf
      cases hf

/-- The command shows of a run what has come of it, whatever the processes that it starts do. -/
theorem perform_shows_run {directory : Location} {launch : Launch} {arguments : List Bytes} {options : Options}
    {t : FileTree} (h : Request.ofArguments arguments = .ok (.run options)) :
    Shows directory launch options t (perform directory launch arguments t).1
      (perform directory launch arguments t).2 := by
  rw [perform, h]
  exact shows_of_course (course_execute directory launch options t)

/-- The arguments that ask for a run in the small system. -/
def smallArguments : List Bytes := ["--root", "stub", "-u", "../up"].map Bytes.ofString

/-- An interpreter that can do nothing. -/
def refusing : Launch := fun _ _ _ => pure (.exited 3, Bytes.ofString "no")

/-- The command ends as an interpreter that exits with three, and repeats what that one has written. -/
theorem perform_shows_run_refused : ∃ options, Request.ofArguments smallArguments = .ok (.run options) ∧
    Shows [] refusing options (Small.system []) (perform [] refusing smallArguments (Small.system [])).1
      (perform [] refusing smallArguments (Small.system [])).2 ∧
    (perform [] refusing smallArguments (Small.system [])).1.exit = 3 ∧
    (perform [] refusing smallArguments (Small.system [])).1.stderr = ['n', 'o', '\n'] := by
  have h : Request.ofArguments smallArguments = .ok (.run ⟨Path.ofString "stub", Path.ofString "../up", 0⟩) := by
    decide +kernel
  exact ⟨_, h, perform_shows_run h, by decide +kernel, by decide +kernel⟩

end Command

end ObjectTables
