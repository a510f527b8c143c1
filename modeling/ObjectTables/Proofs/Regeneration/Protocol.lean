import ObjectTables.Proofs.Regeneration.Conduct
import ObjectTables.Proofs.Regeneration.Preparation

/-! The calls of a run, with any tool and from any file tree. They are the first ones of its script (`makes_run`), and
    what each of them is to find is known when it is made (`Leads`, `fed_run`): the seed, the trimmed numbering, and
    the header as the call before has left it (`run_follows_script`). -/

namespace ObjectTables

open FileTree Run

variable {α β : Type}

namespace Regeneration

variable {directory : Location} {tool : Tool} {sites : Sites}

/-- The calls that a run makes if none of them fails, in order. -/
def script (sites : Sites) : List Call :=
  let files := ScratchFiles.inside sites.scratchDirectory
  [⟨sites.interpreter, [sites.objectsScript, Bytes.ofString "-n", sites.whitelist, files.seed], files.numbering⟩,
    ⟨sites.interpreter, [sites.objectsScript, sites.whitelist, files.numbering], files.header⟩,
    ⟨sites.interpreter, [sites.tableScript, files.header], files.lookupTable⟩]

theorem makes_trimNumbering (directory : Location) (tool : Tool) (sites : Sites) (files : ScratchFiles) :
    Makes tool [(Generator.ofSites sites).call .numbering [sites.whitelist, files.seed] files.numbering]
      (trimNumbering directory tool sites files) := by
  rw [trimNumbering]
  refine (Makes.generate tool _ _ _ _).bind fun _ _ _ _ => ?_
  refine (Makes.change tool (.readText _ _)).bind fun _ _ _ _ => ?_
  refine (Makes.change tool (.readText _ _)).bind fun _ _ _ _ => ?_
  exact (Makes.change tool (.writeText _ _ _)).bind fun _ _ _ _ => Makes.pure tool _

theorem makes_noteGuard (tool : Tool) (full merged : Text) : Makes tool [] (noteGuard full merged) := by
  rw [noteGuard]
  split
  · exact Makes.note tool _
  · exact Makes.pure tool ()

theorem makes_completeHeader (directory : Location) (tool : Tool) (sites : Sites) (files : ScratchFiles) :
    Makes tool [] (completeHeader directory sites files) := by
  rw [completeHeader_eq]
  refine (Makes.change tool (.appendAliases _ _ _)).bind fun _ _ _ _ => ?_
  refine (Makes.change tool (.readText _ _)).bind fun _ full _ _ => ?_
  refine (Makes.change tool (.readText _ _)).bind fun _ merged _ _ => ?_
  refine (makes_noteGuard tool full merged).bind fun _ _ _ _ => ?_
  refine (Makes.change tool (.writeText _ _ _)).bind fun _ _ _ _ => ?_
  exact (Makes.note tool _).bind fun _ _ _ _ => Makes.pure tool _

theorem makes_release (directory : Location) (tool : Tool) (sites : Sites) (files : ScratchFiles) :
    Makes tool [] (release directory sites files) := by
  rw [release]
  exact (Makes.change tool (.publish _ _ _)).bind fun _ _ _ _ => Makes.change tool (.publish _ _ _)

theorem makes_work (directory : Location) (tool : Tool) (sites : Sites) :
    Makes tool (script sites) (work directory tool sites (.inside sites.scratchDirectory)) := by
  have hprepare : Makes tool (script sites) (prepare directory tool sites (.inside sites.scratchDirectory)) := by
    rw [prepare]
    refine (Makes.change tool (.writeText _ _ _)).bind fun _ _ _ _ => ?_
    refine (makes_trimNumbering directory tool sites _).bind fun _ _ _ _ => ?_
    refine (Makes.note tool _).bind fun _ _ _ _ => ?_
    refine (Makes.generate tool _ _ _ _).bind fun _ _ _ _ => ?_
    refine (Makes.generate tool _ _ _ _).bind fun _ _ _ _ => ?_
    exact (makes_completeHeader directory tool sites _).bind fun _ _ _ _ => Makes.pure tool _
  rw [work_eq, ← List.append_nil (script sites)]
  refine hprepare.bind fun _ _ _ _ => ?_
  exact (makes_release directory tool sites _).bind fun _ _ _ _ => Makes.pure tool _

theorem claim_path {p : Path} {t t' : FileTree} {c : ScratchClaim}
    (h : (Scratch.claim directory p).run t = (.ok c, t')) : c = ⟨p, false⟩ := by
  obtain ⟨_, _, -, h⟩ := run_bind_eq_ok h
  obtain ⟨_, _, -, h⟩ := run_bind_eq_ok h
  cases h
  rfl

theorem makes_run (directory : Location) (tool : Tool) (sites : Sites) :
    Makes tool (script sites) (run directory tool sites) := by
  rw [run]
  refine (Makes.change tool (.claim _ _)).bind fun p claim p' hclaim => ?_
  rw [claim_path (change_eq hclaim).1]
  show Makes tool (script sites ++ []) _
  refine (Makes.under _ _ (makes_work directory tool sites)).bind fun _ _ _ _ => ?_
  refine (Makes.change tool (.close _ _)).bind fun _ _ _ _ => ?_
  exact (Makes.change tool (.copy _ _ _)).bind fun _ _ _ _ => Makes.pure tool _

/-! ### What the calls find -/

/-- What a run with the calls `made` leaves for the next call to find: the seed, then the trimmed numbering, and then
    just what the call before has left. -/
def Feeds (directory : Location) (tool : Tool) (sites : Sites) : List CallRecord → FileTree → Prop
  | [], t => t.read directory (ScratchFiles.inside sites.scratchDirectory).seed = .ok Numbering.seed.encode
  | [r], t => ∃ full candidates, (r.left tool).readText directory sites.fullNumbering = .ok full ∧
      (r.left tool).readText directory (ScratchFiles.inside sites.scratchDirectory).numbering = .ok candidates ∧
      t.read directory (ScratchFiles.inside sites.scratchDirectory).numbering =
        .ok ((Numbering.ofText full).trim (Numbering.listedSymbols candidates)).toText.encode
  | [_, r], t => t = r.left tool
  | _, _ => False

/-- Each call found what the run had left for it. -/
def Fed (directory : Location) (tool : Tool) (sites : Sites) (calls : List CallRecord) : Prop :=
  ∀ i r, calls[i]? = some r → Feeds directory tool sites (calls.take i) r.found

theorem fed_nil : Fed directory tool sites [] := fun i r h => by simp at h

theorem Fed.concat {calls : List CallRecord} {r : CallRecord} (h : Fed directory tool sites calls)
    (hr : Feeds directory tool sites calls r.found) : Fed directory tool sites (calls ++ [r]) := by
  intro i s hs
  rcases Nat.lt_or_ge i calls.length with hi | hi
  · rw [List.getElem?_append_left hi] at hs
    rw [List.take_append_of_le_length (Nat.le_of_lt hi)]
    exact h i s hs
  · rw [List.getElem?_append_right hi, List.getElem?_singleton] at hs
    split at hs
    · next hzero =>
      obtain rfl : i = calls.length := by omega
      obtain rfl := Option.some.inj hs
      rwa [List.take_left]
    · cases hs

/-- Started with calls and a file tree of `P`, a part makes no call but such that finds what is left for it, and if it
    succeeds its result, the calls and the tree are as `Q` says. -/
def Leads (directory : Location) (tool : Tool) (sites : Sites) (P : List CallRecord → FileTree → Prop) (x : Run α)
    (Q : α → List CallRecord → FileTree → Prop) : Prop :=
  ∀ p, Fed directory tool sites p.calls → P p.calls p.tree → Fed directory tool sites (x.run p).2.calls ∧
    ∀ a p', x.run p = (.ok a, p') → Q a p'.calls p'.tree

namespace Leads

variable {P : List CallRecord → FileTree → Prop} {Q : α → List CallRecord → FileTree → Prop}
  {R : β → List CallRecord → FileTree → Prop} {x : Run α} {f : α → Run β}

theorem bind (hx : Leads directory tool sites P x Q) (hf : ∀ a, Leads directory tool sites (Q a) (f a) R) :
    Leads directory tool sites P (x >>= f) R := by
  intro p hfed hp
  obtain ⟨hfed', hQ⟩ := hx p hfed hp
  rcases run_bind_cases x f p with ⟨e, p', hrun, hb⟩ | ⟨a, p', hrun, hb⟩
  · rw [hb]
    rw [hrun] at hfed'
    exact ⟨hfed', fun _ _ h => nomatch h⟩
  · rw [hb]
    rw [hrun] at hfed'
    exact hf a p' hfed' (hQ a p' hrun)

theorem pure {a : α} (h : ∀ calls t, P calls t → Q a calls t) : Leads directory tool sites P (Pure.pure a) Q := by
  intro p hfed hp
  refine ⟨hfed, fun b p' hb => ?_⟩
  cases hb
  exact h _ _ hp

theorem change {c : Change Failure α} (h : ∀ calls t a t', P calls t → c.run t = (.ok a, t') → Q a calls t') :
    Leads directory tool sites P (Run.change c) Q := by
  intro p hfed hp
  refine ⟨hfed, fun a p' hrun => ?_⟩
  obtain ⟨hrun, hcalls⟩ := change_eq hrun
  rw [hcalls]
  exact h _ _ _ _ hp hrun

theorem note (n : Notice) : Leads directory tool sites P (Run.note n) fun _ => P := by
  intro p hfed hp
  refine ⟨hfed, fun a p' hrun => ?_⟩
  obtain ⟨htree, hcalls⟩ := note_eq_ok hrun
  rwa [htree, hcalls]

/-- A part without calls says nothing on what it leaves. -/
theorem of_makes (h : Makes tool [] x) : Leads directory tool sites P x fun _ _ _ => True := by
  intro p hfed _
  refine ⟨?_, fun _ _ _ => trivial⟩
  obtain ⟨made, hcalls, hconducted⟩ := h p
  rwa [hcalls, List.map_eq_nil_iff.mp (List.prefix_nil.mp hconducted.isPrefix), List.append_nil]

/-- What holds whatever the calls and the tree are can be taken for granted. -/
theorem assume {A : Prop} (h : A → Leads directory tool sites P x Q) :
    Leads directory tool sites (fun calls t => A ∧ P calls t) x Q := fun p hfed hp => h hp.1 p hfed hp.2

theorem under (claim : ScratchClaim) (hx : Leads directory tool sites P x Q) :
    Leads directory tool sites P (Run.under directory claim x) Q := by
  intro p hfed hp
  obtain ⟨hfed', hQ⟩ := hx p hfed hp
  rcases hrun : x.run p with ⟨e | a, p'⟩
  · obtain ⟨notices, hr⟩ := run_under_of_error directory claim hrun
    rw [hrun] at hfed'
    rw [hr]
    exact ⟨hfed', fun _ _ h => nomatch h⟩
  · rw [run_under_of_ok directory claim hrun, ← hrun]
    exact ⟨hfed', hQ⟩

/-- A call finds what is left for it, and is the last one then. -/
theorem generate {g : Generator} {stage : Stage} {inputs : List Path} {output : Path}
    (h : ∀ calls t, P calls t → Feeds directory tool sites calls t) :
    Leads directory tool sites P (Run.generate tool g stage inputs output) fun _ calls t =>
      ∃ before r, P before r.found ∧ calls = before ++ [r] ∧ t = r.left tool := by
  intro p hfed hp
  have hconcat := hfed.concat (r := ⟨g.call stage inputs output, p.tree⟩) (h _ _ hp)
  rcases hr : (tool (g.call stage inputs output)).run p.tree with ⟨e | completion, t⟩
  · rw [run_generate_of_error hr]
    exact ⟨hconcat, fun _ _ h => nomatch h⟩
  · obtain ⟨notices, hrun⟩ := run_generate_of_ok hr
    rw [hrun]
    refine ⟨hconcat, fun a p' h => ?_⟩
    cases h
    refine ⟨p.calls, ⟨g.call stage inputs output, p.tree⟩, hp, rfl, ?_⟩
    rw [CallRecord.left, hr]

end Leads

/-- After `n` calls, the run has left what the next call is to find. -/
def AtCall (directory : Location) (tool : Tool) (sites : Sites) (n : Nat) (calls : List CallRecord) (t : FileTree) :
    Prop :=
  calls.length = n ∧ Feeds directory tool sites calls t

theorem leads_trimNumbering (directory : Location) (tool : Tool) (sites : Sites) :
    Leads directory tool sites (AtCall directory tool sites 0)
      (trimNumbering directory tool sites (.inside sites.scratchDirectory))
      fun _ => AtCall directory tool sites 1 := by
  rw [trimNumbering]
  refine Leads.bind (Leads.generate fun _ _ h => h.2) fun _ => ?_
  refine Leads.bind (Q := fun full calls t => ∃ r, calls = [r] ∧ t = r.left tool ∧
    t.readText directory sites.fullNumbering = .ok full) (Leads.change ?_) fun full => ?_
  · rintro calls t full t' ⟨before, r, ⟨hbefore, -⟩, rfl, rfl⟩ hrun
    obtain ⟨rfl, hread⟩ := Publication.readText_of_run hrun
    rw [List.eq_nil_of_length_eq_zero hbefore]
    exact ⟨r, rfl, rfl, hread⟩
  refine Leads.bind (Q := fun candidates calls t => ∃ r, calls = [r] ∧ t = r.left tool ∧
    t.readText directory sites.fullNumbering = .ok full ∧
    t.readText directory (ScratchFiles.inside sites.scratchDirectory).numbering = .ok candidates)
    (Leads.change ?_) fun candidates => ?_
  · rintro calls t candidates t' ⟨r, rfl, rfl, hfull⟩ hrun
    obtain ⟨rfl, hread⟩ := Publication.readText_of_run hrun
    exact ⟨r, rfl, rfl, hfull, hread⟩
  refine Leads.bind (Q := fun _ => AtCall directory tool sites 1) (Leads.change ?_) fun _ => Leads.pure fun _ _ h => h
  rintro calls t _ t' ⟨r, rfl, rfl, hfull, hcandidates⟩ hrun
  refine ⟨rfl, full, candidates, hfull, hcandidates, ?_⟩
  rcases Publication.run_writeText_cases directory _ _ (r.left tool) with ⟨e, he⟩ | ⟨u, hu, hwrite⟩
  · rw [he] at hrun
    cases hrun
  · rw [hu] at hrun
    cases hrun
    exact read_of_write hwrite

theorem leads_prepare (directory : Location) (tool : Tool) (sites : Sites) :
    Leads directory tool sites (fun calls _ => calls = [])
      (prepare directory tool sites (.inside sites.scratchDirectory)) fun _ _ _ => True := by
  rw [prepare]
  refine Leads.bind (Q := fun _ => AtCall directory tool sites 0) (Leads.change ?_) fun _ => ?_
  · rintro calls t _ t' rfl hrun
    refine ⟨rfl, ?_⟩
    rcases Publication.run_writeText_cases directory _ _ t with ⟨e, he⟩ | ⟨u, hu, hwrite⟩
    · rw [he] at hrun
      cases hrun
    · rw [hu] at hrun
      cases hrun
      exact read_of_write hwrite
  refine Leads.bind (leads_trimNumbering directory tool sites) fun _ => ?_
  refine Leads.bind (Leads.note _) fun _ => ?_
  refine Leads.bind (Leads.generate fun _ _ h => h.2) fun _ => ?_
  -- nothing comes between the second call and the third
  refine Leads.bind (Leads.generate ?_) fun _ => ?_
  · rintro calls t ⟨before, r, ⟨hbefore, -⟩, rfl, rfl⟩
    obtain ⟨first, rfl⟩ := List.length_eq_one_iff.mp hbefore
    rfl
  · have hrest := makes_completeHeader directory tool sites (.inside sites.scratchDirectory)
    exact Leads.bind (Leads.of_makes hrest) fun _ => Leads.pure fun _ _ _ => trivial

/-- Each call of a run finds what the run has left for it. -/
theorem fed_run (directory : Location) (tool : Tool) (sites : Sites) (t : FileTree) :
    Fed directory tool sites ((run directory tool sites).run ⟨t, [], []⟩).2.calls := by
  have hwork : Leads directory tool sites (fun calls _ => calls = [])
      (work directory tool sites (.inside sites.scratchDirectory)) fun _ _ _ => True := by
    rw [work_eq]
    refine Leads.bind (leads_prepare directory tool sites) fun _ => ?_
    have hrest := makes_release directory tool sites (.inside sites.scratchDirectory)
    exact Leads.bind (Leads.of_makes hrest) fun _ => Leads.pure fun _ _ _ => trivial
  have hrun : Leads directory tool sites (fun calls _ => calls = []) (run directory tool sites) fun _ _ _ => True := by
    rw [run]
    refine Leads.bind (Q := fun claim calls _ => claim = ⟨sites.scratchDirectory, false⟩ ∧ calls = [])
      (Leads.change fun _ _ _ _ hcalls hrun => ⟨claim_path hrun, hcalls⟩) fun claim => Leads.assume fun hclaim => ?_
    subst hclaim
    have hclose := Makes.change tool (.close directory ⟨sites.scratchDirectory, false⟩)
    have hcopy := Makes.change tool (.copy directory sites.dataSource sites.publishedSource)
    refine Leads.bind (hwork.under _) fun _ => ?_
    refine Leads.bind (Leads.of_makes hclose) fun _ => ?_
    exact Leads.bind (Leads.of_makes hcopy) fun _ => Leads.pure fun _ _ _ => trivial
  exact (hrun ⟨t, [], []⟩ fed_nil rfl).1

/-- What a run has to do with its calls, in the end. -/
structure FollowsScript (directory : Location) (tool : Tool) (sites : Sites) (result : Except Failure Report)
    (calls : List CallRecord) : Prop where
  /-- The calls are the first ones of the script. -/
  order : calls.map (·.call) <+: script sites
  /-- A run succeeds only after all calls, each of which has succeeded. -/
  succeeds : ∀ report, result = .ok report →
    calls.map (·.call) = script sites ∧ ∀ r ∈ calls, (r.result tool).isOk = true
  /-- A call that fails is the last one, and the run fails as it did. -/
  fails : ∀ (i : Nat) (r : CallRecord) (e : Failure), calls[i]? = some r → r.result tool = .error e →
    i + 1 = calls.length ∧ result = .error e
  /-- A run fails as a tool does only if a call of the tool did. -/
  blames : ∀ e, result = .error e → e.ofTool = true → ∃ r ∈ calls, r.result tool = .error e
  /-- The first call finds the seed. -/
  seed : ∀ r, calls[0]? = some r →
    r.found.read directory (ScratchFiles.inside sites.scratchDirectory).seed = .ok Numbering.seed.encode
  /-- The second call finds the full numbering trimmed to what the first one has listed. -/
  trimmed : ∀ r r', calls[0]? = some r → calls[1]? = some r' →
    ∃ full candidates, (r.left tool).readText directory sites.fullNumbering = .ok full ∧
      (r.left tool).readText directory (ScratchFiles.inside sites.scratchDirectory).numbering = .ok candidates ∧
      r'.found.read directory (ScratchFiles.inside sites.scratchDirectory).numbering =
        .ok ((Numbering.ofText full).trim (Numbering.listedSymbols candidates)).toText.encode
  /-- The third call finds all as the second one has left it, the header among it. -/
  unmerged : ∀ r r', calls[1]? = some r → calls[2]? = some r' → r'.found = r.left tool ∧
    r'.found.read directory (ScratchFiles.inside sites.scratchDirectory).header =
      (r.left tool).read directory (ScratchFiles.inside sites.scratchDirectory).header

/-- A run makes its calls as the script says, with any tool and from any file tree. -/
theorem run_follows_script (directory : Location) (tool : Tool) (sites : Sites) (t : FileTree) :
    let outcome := (run directory tool sites).run ⟨t, [], []⟩
    FollowsScript directory tool sites outcome.1 outcome.2.calls := by
  intro outcome
  obtain ⟨made, hcalls, hconducted⟩ := makes_run directory tool sites ⟨t, [], []⟩
  have hfed : Fed directory tool sites outcome.2.calls := fed_run directory tool sites t
  have hmade : outcome.2.calls = made := hcalls
  rw [← hmade] at hconducted
  have hfirst {r : CallRecord} (h₀ : outcome.2.calls[0]? = some r) : outcome.2.calls.take 1 = [r] := by
    rw [List.take_add_one, h₀]
    rfl
  refine ⟨hconducted.isPrefix, hconducted.succeeds, hconducted.fails, hconducted.blames, fun r h₀ => ?_,
    fun r r' h₀ h₁ => ?_, fun r r' h₁ h₂ => ?_⟩
  · exact hfed 0 r h₀
  · have hfound := hfed 1 r' h₁
    rwa [hfirst h₀] at hfound
  · have hfound := hfed 2 r' h₂
    obtain ⟨first, h₀⟩ : ∃ first, outcome.2.calls[0]? = some first := by
      obtain ⟨hlength, -⟩ := List.getElem?_eq_some_iff.mp h₁
      exact ⟨_, List.getElem?_eq_getElem (by omega)⟩
    rw [List.take_add_one, hfirst h₀, h₁] at hfound
    exact ⟨hfound, congrArg (fun t : FileTree => t.read directory _) hfound⟩

end Regeneration

end ObjectTables
