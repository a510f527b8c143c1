import ObjectTables.Proofs.Regeneration.Attempt
import ObjectTables.Proofs.Tool.Function

/-! What a run depends on. A tool that is a function of its call, and of what the files hold that its arguments name,
    cannot tell two trees apart that differ in leftovers only. So two runs from such trees go together part by part:
    once the scratch directory is claimed they agree on all that is read from then on (`Matched`). -/

namespace ObjectTables

open FileTree

/-- What is seen of a call: the call, and what the files hold that its arguments name. -/
def CallRecord.view (directory : Location) (r : CallRecord) : Call × List (Option Bytes) :=
  (r.call, r.call.arguments.map fun a => (r.found.read directory a).toOption)

namespace Run

variable {α β : Type} {directory : Location} {ls : List Location} {P Q : FileTree → FileTree → Prop}

/-- Two runs have said the same, and their calls have seen the same. -/
def Echo (directory : Location) (p q : Progress) : Prop :=
  p.notices = q.notices ∧ p.calls.map (CallRecord.view directory) = q.calls.map (CallRecord.view directory)

/-- Two runs have gone on in step: so have their trees, and if they had said and seen the same, they still have. -/
def InStep (directory : Location) (ls : List Location) (p q p' q' : Progress) : Prop :=
  Abreast ls p.tree q.tree p'.tree q'.tree ∧ (Echo directory p q → Echo directory p' q')

theorem InStep.refl (p q : Progress) : InStep directory ls p q p q := ⟨.refl ls _ _, id⟩

theorem InStep.trans (p q p' q' p'' q'' : Progress) (h : InStep directory ls p q p' q')
    (h' : InStep directory ls p' q' p'' q'') : InStep directory ls p q p'' q'' :=
  ⟨h.1.trans h'.1, h'.2 ∘ h.2⟩

theorem together_change {c : Change Failure α} (h : Together (Abreast ls) P Q c) :
    Together (InStep directory ls) (OnTree P) (OnTree Q) (change c) := by
  intro p q hpq
  obtain ⟨hresult, hstep, hok⟩ := h p.tree q.tree hpq
  exact ⟨hresult, ⟨hstep, id⟩, hok⟩

theorem together_note (n : Notice) : Together (InStep directory ls) (OnTree P) (OnTree P) (note n) := by
  intro p q hpq
  refine ⟨rfl, ⟨.refl ls _ _, fun h => ⟨?_, h.2⟩⟩, fun _ => hpq⟩
  rw [run_note, run_note]
  exact congrArg (· ++ [n]) h.1

theorem together_generate {tool : Tool} (htool : tool.Functional directory) (hstable : Stable (Abreast ls) P)
    (g : Generator) (stage : Stage) (inputs : List Path) (output : Path)
    (hshown : ∀ t u, P t u → (g.call stage inputs output).ShownAlike directory t u)
    (hls : ∀ l ∈ ls, ¬ target directory output <+: l) :
    Together (InStep directory ls) (OnTree P) (OnTree P) (generate tool g stage inputs output) := by
  have hcall : Together (InStep directory ls) (OnTree P) (OnTree P) (modify fun p : Progress =>
      { p with calls := p.calls ++ [⟨g.call stage inputs output, p.tree⟩] } : Run Unit) := by
    intro p q hpq
    refine ⟨rfl, ⟨.refl ls _ _, fun h => ⟨h.1, ?_⟩⟩, fun _ => hpq⟩
    have hview : CallRecord.view directory ⟨g.call stage inputs output, p.tree⟩ =
        CallRecord.view directory ⟨g.call stage inputs output, q.tree⟩ :=
      Prod.ext rfl (List.map_congr_left (hshown _ _ hpq).arguments)
    rw [run_modify, run_modify, List.map_append, List.map_append, h.2, List.map_singleton, List.map_singleton, hview]
  have htool : Together (Abreast ls) P P (tool (g.call stage inputs output)) := by
    refine Together.keep hstable fun t u htu => ?_
    obtain ⟨hresult, hsame⟩ := htool.determined _ t u (hshown t u htu)
    refine ⟨hresult, fun l => ?_⟩
    by_cases hl : target directory output <+: l
    · exact Or.inr ⟨hsame l hl, fun hmem => absurd hl (hls l hmem)⟩
    · exact Or.inl ⟨htool.confined _ t l hl, htool.confined _ u l hl⟩
  refine hcall.bind InStep.trans fun _ => (together_change htool).bind InStep.trans fun completion => ?_
  have hrest : Together (InStep directory ls) (OnTree P) (OnTree P)
      (do note (.generated stage output); return completion) :=
    (together_note _).bind InStep.trans fun _ => Together.pure InStep.refl completion
  dsimp only
  split
  · exact (together_note _).bind InStep.trans fun _ => hrest
  · exact hrest

/-- A part under a claim goes together if the removal of the scratch directory does. -/
theorem together_under {x : Run α} {claim : ScratchClaim} (hdue : claim.released = false)
    (hstable : Stable (Abreast ls) P)
    (hremove : Together (Abreast ls) P P (Scratch.remove directory claim.path))
    (hx : Together (InStep directory ls) (OnTree P) (OnTree Q) x) :
    Together (InStep directory ls) (OnTree P) (OnTree Q) (under directory claim x) := by
  intro p q hpq
  obtain ⟨hresult, hstep, hok⟩ := hx p q hpq
  rcases hp : x.run p with ⟨e | a, p'⟩
  · rcases hq : x.run q with ⟨r, q'⟩
    rw [hp, hq] at hresult hstep
    obtain rfl : Except.error e = r := hresult
    obtain ⟨hremoved, hstep', -⟩ := hremove p'.tree q'.tree (hstable _ _ _ _ hstep.1 hpq)
    have hdiscard (t : FileTree) : claim.discard directory t =
        (Scratch.leftover? ((Scratch.remove directory claim.path).run t).1,
          ((Scratch.remove directory claim.path).run t).2) := Scratch.discard_of_due hdue directory t
    rw [run_under_eq_discard directory claim hp, run_under_eq_discard directory claim hq, hdiscard, hdiscard, hremoved]
    refine ⟨rfl, ⟨hstep.1.trans hstep', fun h => ?_⟩, fun h => nomatch h⟩
    obtain ⟨hnotices, hcalls⟩ := hstep.2 h
    exact ⟨congrArg (· ++ _) hnotices, hcalls⟩
  · rcases hq : x.run q with ⟨r, q'⟩
    rw [hp, hq] at hresult hstep hok
    obtain rfl : Except.ok a = r := hresult
    rw [run_under_of_ok directory claim hp, run_under_of_ok directory claim hq]
    exact ⟨rfl, hstep, hok⟩

end Run

namespace Sites

variable {directory l : Location} {s : Sites} {p p' : Path}

/-- The locations on the way to the published files. -/
def outputWays (directory : Location) (s : Sites) : List Location := s.outputs.flatMap (way directory)

theorem mem_outputWays : l ∈ s.outputWays directory ↔ ∃ p ∈ s.outputs, l ∈ way directory p := List.mem_flatMap

theorem Separated.outputWays_clear (h : Separated directory s) (hl : l ∈ s.outputWays directory) :
    ¬ target directory s.scratchDirectory <+: l := by
  obtain ⟨p, hp, hway⟩ := mem_outputWays.mp hl
  exact h.clear (List.mem_append_right _ hp) l (List.mem_cons_of_mem _ hway)

/-- A published file on the way to another one is on its own way, so that it cannot be published. -/
theorem Separated.mem_own_way (h : Separated directory s) (hp : p ∈ s.outputs)
    (hl : target directory p ∈ s.outputWays directory) : target directory p ∈ way directory p := by
  obtain ⟨p', hp', hway⟩ := mem_outputWays.mp hl
  rcases (below_output hp').mem_way hway with hroot | ⟨-, hpre, hne⟩
  · obtain ⟨ns, -, -, hsteps⟩ := (below_output hp).steps_eq
    rw [way, (below_output hp).start_eq, hsteps, passed_append]
    exact List.mem_append_left _ hroot
  · exact absurd (h.eq_of_isPrefix hp hp' hpre) hne

theorem start_root_mem (directory : Location) (s : Sites) : start directory s.root ∈ way directory s.whitelist :=
  (below_whitelist s).start_mem_way directory

theorem start_output (directory : Location) (hp : p ∈ s.outputs) : start directory p = start directory s.root :=
  (below_output hp).start_eq directory

end Sites

namespace Regeneration

variable {directory l : Location} {tool : Tool} {sites : Sites} {t u : FileTree} {known : List Location} {file p : Path}
  {n : Name}

/-! ### Trees that a run cannot tell apart -/

/-- The same file stands at a location in two trees, or no file in either. -/
def SameFile (l : Location) (t u : FileTree) : Prop :=
  t.get? l = u.get? l ∨ ∀ x, t.get? l ≠ some (.file x) ∧ u.get? l ≠ some (.file x)

theorem stable_sameFile (ls : List Location) (l : Location) : Stable (Abreast ls) (SameFile l) := by
  intro t u t' u' hstep h
  rcases hstep l with ⟨ht, hu⟩ | ⟨hsame, -⟩
  · rwa [SameFile, ht, hu]
  · exact Or.inl hsame

theorem SameFile.symm (h : SameFile l t u) : SameFile l u t :=
  h.imp Eq.symm fun h x => (h x).symm

/-- The flag of the generator, as a path. -/
def flag : Path := Bytes.ofString Generator.numberingFlag

theorem steps_flag : flag.steps = [flag] := Path.steps_name (by decide) (by decide)

theorem target_flag (directory : Location) : target directory flag = directory ++ [flag] := by
  rw [target, steps_flag]
  exact toward_name (s := flag) (by decide) directory

theorem way_flag (directory : Location) : way directory flag = [directory] := by
  rw [way, steps_flag]
  rfl

theorem read_flag_of (h : SameFile (target directory flag) t u) {x : Bytes} (hread : t.read directory flag = .ok x) :
    u.read directory flag = .ok x := by
  have hx := get?_of_read hread
  have hux : u.get? (target directory flag) = some (.file x) := by
    rcases h with heq | hnone
    · rw [← heq, hx]
    · exact absurd hx (hnone x).1
  obtain ⟨l, hlocate, -⟩ := read_eq_ok.mp hread
  obtain ⟨hfits, -⟩ := locate_eq_ok.mp hlocate
  refine read_eq_ok.mpr ⟨_, locate_eq_ok.mpr ⟨hfits, rfl, fun q hq => ?_, fun _ => by rw [hux]; rfl, fun hs => ?_⟩, hux⟩
  · rw [way_flag] at hq
    rw [List.mem_singleton.mp hq]
    have hup := get?_dropLast (t := u) (l := target directory flag) (by rw [hux]; rfl)
    rwa [target_flag, List.dropLast_concat] at hup
  · exact absurd hs (by decide)

theorem read_flag (h : SameFile (target directory flag) t u) :
    (t.read directory flag).toOption = (u.read directory flag).toOption := by
  cases ht : t.read directory flag with
  | ok x => rw [read_flag_of h ht]
  | error e =>
    cases hu : u.read directory flag with
    | ok x =>
      rw [read_flag_of h.symm hu] at ht
      cases ht
    | error e' => rfl

/-- Two trees that a run cannot tell apart any more: they agree on the scratch directory, on the inputs, and on the
    locations `known`. What stands in the place of the published files need not be the same. -/
structure Matched (directory : Location) (sites : Sites) (known : List Location) (t u : FileTree) : Prop where
  scratch : ∀ l, target directory sites.scratchDirectory <+: l → t.get? l = u.get? l
  way : Agree (way directory sites.scratchDirectory) t u
  inputs : ∀ p ∈ sites.inputs, Agree (target directory p :: FileTree.way directory p) t u
  flag : SameFile (target directory flag) t u
  ways : ∀ p ∈ sites.outputs, Comparable (FileTree.way directory p) t u
  goals : ∀ p ∈ sites.outputs, Writable directory p t u
  known : Agree known t u

theorem stable_matched (directory : Location) (sites : Sites) (known : List Location) :
    Stable (Abreast (sites.outputWays directory)) (Matched directory sites known) := by
  intro t u t' u' hstep h
  refine ⟨fun l hl => hstep.get? (h.scratch l hl), hstep.agree h.way, fun p hp => hstep.agree (h.inputs p hp),
    stable_sameFile _ _ _ _ _ _ hstep h.flag, fun p hp => ?_, fun p hp => ?_, hstep.agree h.known⟩
  · exact stable_comparable (fun l hl => Sites.mem_outputWays.mpr ⟨p, hp, hl⟩) _ _ _ _ hstep (h.ways p hp)
  · exact stable_writable _ _ _ _ _ _ _ hstep (h.goals p hp)

namespace Matched

theorem inside (h : Matched directory sites known t u) (hf : Inside sites.scratchDirectory file n) :
    Agree (target directory file :: FileTree.way directory file) t u := by
  rw [hf.target_eq, hf.path, way_join directory sites.scratchDirectory hf.name]
  refine agree_cons.mpr ⟨h.scratch _ (List.prefix_append _ _), fun l hl => ?_⟩
  rcases List.mem_append.mp hl with hl | hl
  · exact h.way l hl
  · rw [List.mem_singleton.mp hl]
    exact h.scratch _ List.prefix_rfl

theorem publishable (h : Matched directory sites known t u) (hp : p ∈ sites.outputs) :
    Publication.Publishable directory p t u where
  start := by
    rw [Sites.start_output directory hp]
    exact h.inputs sites.whitelist (by simp [Sites.inputs]) _
      (List.mem_cons_of_mem _ (Sites.start_root_mem directory sites))
  ways := h.ways p hp
  goal := h.goals p hp

end Matched

/-! ### The parts of a run -/

/-- A part of a run goes together from trees that cannot be told apart, and then they agree on the locations
    `known'`. -/
def Alongside {α : Type} (directory : Location) (sites : Sites) (known known' : List Location) (x : Run α) : Prop :=
  Together (Run.InStep directory (sites.outputWays directory)) (Run.OnTree (Matched directory sites known))
    (Run.OnTree (Matched directory sites known')) x

section Parts

variable {α β : Type} {known' known'' : List Location} {x : Run α} {f : α → Run β}

theorem Alongside.bind (hx : Alongside directory sites known known' x)
    (hf : ∀ a, Alongside directory sites known' known'' (f a)) : Alongside directory sites known known'' (x >>= f) :=
  Together.bind hx Run.InStep.trans hf

theorem alongside_pure (known : List Location) (a : α) : Alongside directory sites known known (pure a) :=
  Together.pure Run.InStep.refl a

theorem alongside_note (known : List Location) (n : Notice) : Alongside directory sites known known (Run.note n) :=
  Run.together_note n

theorem inside_off (h : sites.Separated directory) (hf : Inside sites.scratchDirectory file n) :
    ∀ l ∈ sites.outputWays directory, ¬ target directory file <+: l := by
  intro l hl hpre
  rw [hf.target_eq] at hpre
  exact h.outputWays_clear hl ((List.prefix_append _ _).trans hpre)

theorem alongside_readInput (known : List Location) (hp : p ∈ sites.inputs) :
    Alongside directory sites known known (Run.change (Publication.readText directory p)) :=
  Run.together_change (Publication.together_readText _ fun _ _ hm => hm.inputs p hp)

theorem alongside_readInside (known : List Location) (hf : Inside sites.scratchDirectory file n) :
    Alongside directory sites known known (Run.change (Publication.readText directory file)) :=
  Run.together_change (Publication.together_readText _ fun _ _ hm => hm.inside hf)

theorem alongside_writeInside (h : sites.Separated directory) (known : List Location)
    (hf : Inside sites.scratchDirectory file n) (text : Text) :
    Alongside directory sites known known (Run.change (Publication.writeText directory file text)) := by
  refine Run.together_change ((Publication.together_writeText (stable_matched directory sites known) (fun t u hm => ?_)
    (fun hmem => absurd List.prefix_rfl (inside_off h hf _ hmem)) text).weaken (fun _ _ hm => hm) fun _ _ hm => hm.1)
  obtain ⟨htarget, hway⟩ := agree_cons.mp (hm.inside hf)
  exact ⟨hway, Or.inr htarget⟩

/-- What a call may be given to read: inputs, files in the scratch directory, and the flag. -/
def Shown (sites : Sites) (p : Path) : Prop :=
  p ∈ sites.inputs ∨ (∃ n, Inside sites.scratchDirectory p n) ∨ p = flag

theorem Matched.shown (hm : Matched directory sites known t u) (hp : Shown sites p) :
    (t.read directory p).toOption = (u.read directory p).toOption := by
  rcases hp with hp | ⟨n, hf⟩ | rfl
  · rw [read_agree (hm.inputs p hp)]
  · rw [read_agree (hm.inside hf)]
  · exact read_flag hm.flag

theorem shown_script (sites : Sites) (stage : Stage) : ∀ a ∈ (Generator.call (.ofSites sites) stage [] p).arguments,
    Shown sites a := by
  cases stage with
  | numbering => exact List.forall_mem_cons.mpr ⟨Or.inl (by simp [Sites.inputs, Generator.ofSites]),
      List.forall_mem_singleton.mpr (Or.inr (Or.inr rfl))⟩
  | header => exact List.forall_mem_singleton.mpr (Or.inl (by simp [Sites.inputs, Generator.ofSites]))
  | lookupTable => exact List.forall_mem_singleton.mpr (Or.inl (by simp [Sites.inputs, Generator.ofSites]))

theorem shown_call {inputs : List Path} (stage : Stage) (output : Path) (h : ∀ a ∈ inputs, Shown sites a) :
    ∀ a ∈ (Generator.call (.ofSites sites) stage inputs output).arguments, Shown sites a := by
  intro a ha
  have happend : (Generator.call (.ofSites sites) stage inputs output).arguments =
      (Generator.call (.ofSites sites) stage [] output).arguments ++ inputs := by
    cases stage <;> rfl
  rw [happend] at ha
  exact (List.mem_append.mp ha).elim (shown_script sites stage a) (h a)

theorem alongside_generate (h : sites.Separated directory) (htool : tool.Functional directory) (known : List Location)
    (hf : Inside sites.scratchDirectory file n) (stage : Stage) {inputs : List Path}
    (hinputs : ∀ a ∈ inputs, Shown sites a) :
    Alongside directory sites known known (Run.generate tool (.ofSites sites) stage inputs file) := by
  refine Run.together_generate htool (stable_matched directory sites known) _ stage inputs file (fun t u hm => ?_)
    (inside_off h hf)
  refine ⟨fun a ha => hm.shown (shown_call stage file hinputs a ha), (agree_cons.mp (hm.inside hf)).2, fun l hl => ?_⟩
  have hl : target directory file <+: l := hl
  rw [hf.target_eq] at hl
  exact hm.scratch l ((List.prefix_append _ _).trans hl)

theorem shown_whitelist (sites : Sites) : Shown sites sites.whitelist := Or.inl (by simp [Sites.inputs])

theorem alongside_trimNumbering (h : sites.Separated directory) (htool : tool.Functional directory)
    (known : List Location) :
    Alongside directory sites known known (trimNumbering directory tool sites (.inside sites.scratchDirectory)) := by
  have hnumbering := ScratchFiles.inside_numbering sites.scratchDirectory
  have hseed := ScratchFiles.inside_seed sites.scratchDirectory
  rw [trimNumbering]
  refine (alongside_generate h htool known hnumbering .numbering ?_).bind fun _ => ?_
  · exact List.forall_mem_cons.mpr ⟨shown_whitelist sites, List.forall_mem_singleton.mpr (Or.inr (Or.inl ⟨_, hseed⟩))⟩
  refine (alongside_readInput known (by simp [Sites.inputs])).bind fun full => ?_
  refine (alongside_readInside known hnumbering).bind fun candidates => ?_
  exact (alongside_writeInside h known hnumbering _).bind fun _ => alongside_pure known _

theorem alongside_noteGuard (known : List Location) (full merged : Text) :
    Alongside directory sites known known (noteGuard full merged) := by
  rw [noteGuard]
  split
  · exact alongside_note known _
  · exact alongside_pure known _

theorem alongside_completeHeader (h : sites.Separated directory) (known : List Location) :
    Alongside directory sites known known (completeHeader directory sites (.inside sites.scratchDirectory)) := by
  have hheader := ScratchFiles.inside_header sites.scratchDirectory
  have happend : Alongside directory sites known known (Run.change (Publication.appendAliases directory
      (ScratchFiles.inside sites.scratchDirectory).header sites.compatHeader)) :=
    Run.together_change (Publication.together_appendAliases (stable_matched directory sites known)
      (fun _ _ hm => hm.inside hheader) (fun _ _ hm => hm.inputs _ (by simp [Sites.inputs]))
      fun hmem => absurd List.prefix_rfl (inside_off h hheader _ hmem))
  rw [completeHeader_eq]
  refine happend.bind fun _ => ?_
  refine (alongside_readInput known (by simp [Sites.inputs])).bind fun full => ?_
  refine (alongside_readInside known hheader).bind fun merged => ?_
  refine (alongside_noteGuard known full merged).bind fun _ => ?_
  refine (alongside_writeInside h known (ScratchFiles.inside_final sites.scratchDirectory) _).bind fun _ => ?_
  exact (alongside_note known _).bind fun _ => alongside_pure known _

theorem alongside_prepare (h : sites.Separated directory) (htool : tool.Functional directory) (known : List Location) :
    Alongside directory sites known known (prepare directory tool sites (.inside sites.scratchDirectory)) := by
  have hnumbering := ScratchFiles.inside_numbering sites.scratchDirectory
  have hheader := ScratchFiles.inside_header sites.scratchDirectory
  rw [prepare]
  refine (alongside_writeInside h known (ScratchFiles.inside_seed _) _).bind fun _ => ?_
  refine (alongside_trimNumbering h htool known).bind fun numberings => ?_
  refine (alongside_note known _).bind fun _ => ?_
  refine (alongside_generate h htool known hheader .header ?_).bind fun _ => ?_
  · exact List.forall_mem_cons.mpr
      ⟨shown_whitelist sites, List.forall_mem_singleton.mpr (Or.inr (Or.inl ⟨_, hnumbering⟩))⟩
  refine (alongside_generate h htool known (ScratchFiles.inside_table _) .lookupTable ?_).bind fun _ => ?_
  · exact List.forall_mem_singleton.mpr (Or.inr (Or.inl ⟨_, hheader⟩))
  exact (alongside_completeHeader h known).bind fun missing => alongside_pure known _

theorem Matched.learn (hm : Matched directory sites known t u) (hl : t.get? l = u.get? l) :
    Matched directory sites (l :: known) t u := { hm with known := agree_cons.mpr ⟨hl, hm.known⟩ }

theorem alongside_publish (h : sites.Separated directory) (known : List Location)
    (hf : Inside sites.scratchDirectory file n) (hp : p ∈ sites.outputs) :
    Alongside directory sites known (target directory p :: known)
      (Run.change (Publication.publish directory file p)) := by
  obtain ⟨up, m, hends⟩ := (Sites.below_output hp).endsIn
  exact Run.together_change ((Publication.together_publish (stable_matched directory sites known) hends.tidy
    (fun _ _ hm => hm.inside hf) (fun _ _ hm => hm.publishable hp) (h.mem_own_way hp)).weaken (fun _ _ hm => hm)
    fun _ _ hm => hm.1.learn hm.2)

theorem alongside_work (h : sites.Separated directory) (htool : tool.Functional directory) :
    Alongside directory sites [] [target directory sites.publishedHeader, target directory sites.publishedTable]
      (work directory tool sites (.inside sites.scratchDirectory)) := by
  rw [work_eq]
  refine (alongside_prepare h htool []).bind fun report => ?_
  refine Alongside.bind ?_ fun _ => alongside_pure _ report
  refine (alongside_publish h [] (ScratchFiles.inside_table _) (by simp [Sites.outputs])).bind fun _ => ?_
  exact alongside_publish h _ (ScratchFiles.inside_final _) (by simp [Sites.outputs])

theorem together_release (h : sites.Separated directory) (known : List Location) :
    Together (Abreast (sites.outputWays directory)) (Matched directory sites known) (Matched directory sites known)
      (Scratch.remove directory sites.scratchDirectory) := by
  obtain ⟨up, n, hends⟩ := h.name
  exact Scratch.together_remove hends (stable_matched directory sites known) (fun _ hl => h.outputWays_clear hl)
    fun _ _ hm => agree_cons.mpr ⟨hm.scratch _ List.prefix_rfl, hm.way⟩

theorem together_close (h : sites.Separated directory) (known : List Location) :
    Together (Abreast (sites.outputWays directory)) (Matched directory sites known) (Matched directory sites known)
      (ScratchClaim.close directory ⟨sites.scratchDirectory, false⟩) := by
  intro t u hm
  rw [Scratch.run_close, Scratch.run_close]
  exact together_release h known t u hm

theorem alongside_copy (h : sites.Separated directory) (known : List Location) :
    Alongside directory sites known (target directory sites.publishedSource :: known)
      (Run.change (Publication.copy directory sites.dataSource sites.publishedSource)) := by
  have hp : sites.publishedSource ∈ sites.outputs := by simp [Sites.outputs]
  obtain ⟨up, m, hends⟩ := (Sites.below_output hp).endsIn
  exact Run.together_change ((Publication.together_copy (stable_matched directory sites known) hends.tidy
    (fun _ _ hm => hm.inputs _ (by simp [Sites.inputs])) (fun _ _ hm => hm.publishable hp) (h.mem_own_way hp)).weaken
    (fun _ _ hm => hm) fun _ _ hm => hm.1.learn hm.2)

end Parts

end Regeneration

end ObjectTables
