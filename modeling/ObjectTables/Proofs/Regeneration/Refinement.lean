import ObjectTables.Proofs.Regeneration.Preparation
import ObjectTables.Proofs.Scratch
import ObjectTables.Proofs.Tool.Rehearsal

/-! What a whole run does to the files. A run that is ready for its sites, and whose calls are answered by
    texts, succeeds, and what stands at each location afterwards is a function of the texts and of the tree
    before (`run_outcome`): the three published files, nothing where the scratch directory was, directories
    on the way to these, and all else as before. -/

namespace ObjectTables

open FileTree

namespace Sites

variable {s : Sites} {directory l : Location} {p : Path} {t : FileTree}

/-- The locations on the way to the scratch directory and to the published files. -/
def ways (directory : Location) (s : Sites) : List Location :=
  (s.scratchDirectory :: s.outputs).flatMap (way directory)

theorem mem_ways :
    l ∈ s.ways directory ↔ l ∈ way directory s.scratchDirectory ∨ ∃ p ∈ s.outputs, l ∈ way directory p := by
  simp [ways]

theorem mem_ways_of_output (hp : p ∈ s.outputs) (hl : l ∈ way directory p) : l ∈ s.ways directory :=
  mem_ways.mpr (Or.inr ⟨p, hp, hl⟩)

end Sites

namespace Regeneration

/-- What a run is promised: separated sites, a root, a scratch directory that is one or absent, free ways, no
    directory in a published file's place, and inputs that can be read. -/
structure Arranged (directory : Location) (sites : Sites) (x : Texts) (source : Bytes) (t : FileTree) : Prop where
  separated : sites.Separated directory
  root : t.reachesDirectory directory sites.root = true
  scratch : t.Free (target directory sites.scratchDirectory)
  free : ∀ l ∈ sites.ways directory, t.Free l
  outputs : ∀ p ∈ sites.outputs, t.get? (target directory p) ≠ some .directory
  fullNumbering : t.readText directory sites.fullNumbering = .ok x.fullNumbering
  fullHeader : t.readText directory sites.fullHeader = .ok x.fullHeader
  compatHeader : t.readText directory sites.compatHeader = .ok x.compatHeader
  dataSource : t.read directory sites.dataSource = .ok source

/-- What it needs besides to succeed: a scratch directory that is reached if it is there, paths within the
    limits, and a scratch path that leads neither through its own directory nor through a published file's
    place. -/
structure Ready (directory : Location) (sites : Sites) (x : Texts) (source : Bytes) (t : FileTree) : Prop
    extends Arranged directory sites x source t where
  reached : t.get? (target directory sites.scratchDirectory) = none ∨
    t.reachesDirectory directory sites.scratchDirectory = true
  scratchFits : ScratchFiles.Fit sites.scratchDirectory
  outputsFit : ∀ p ∈ sites.outputs, Fits p
  outside : Outside directory sites.scratchDirectory
  off : ∀ p ∈ sites.outputs, target directory p ∉ way directory sites.scratchDirectory

section Decidable

variable (directory : Location) (sites : Sites) (x : Texts) (source : Bytes) (t : FileTree)

instance : Decidable (Arranged directory sites x source t) :=
  decidable_of_iff (sites.Separated directory ∧ t.reachesDirectory directory sites.root = true ∧
      t.Free (target directory sites.scratchDirectory) ∧ (∀ l ∈ sites.ways directory, t.Free l) ∧
      (∀ p ∈ sites.outputs, t.get? (target directory p) ≠ some .directory) ∧
      t.readText directory sites.fullNumbering = .ok x.fullNumbering ∧
      t.readText directory sites.fullHeader = .ok x.fullHeader ∧
      t.readText directory sites.compatHeader = .ok x.compatHeader ∧ t.read directory sites.dataSource = .ok source)
    ⟨fun ⟨h₁, h₂, h₃, h₄, h₅, h₆, h₇, h₈, h₉⟩ => ⟨h₁, h₂, h₃, h₄, h₅, h₆, h₇, h₈, h₉⟩, fun h =>
      ⟨h.separated, h.root, h.scratch, h.free, h.outputs, h.fullNumbering, h.fullHeader, h.compatHeader, h.dataSource⟩⟩

instance : Decidable (Ready directory sites x source t) :=
  decidable_of_iff (Arranged directory sites x source t ∧
      (t.get? (target directory sites.scratchDirectory) = none ∨
        t.reachesDirectory directory sites.scratchDirectory = true) ∧
      ScratchFiles.Fit sites.scratchDirectory ∧ (∀ p ∈ sites.outputs, Fits p) ∧
      Outside directory sites.scratchDirectory ∧
      ∀ p ∈ sites.outputs, target directory p ∉ way directory sites.scratchDirectory)
    ⟨fun ⟨h₁, h₂, h₃, h₄, h₅, h₆⟩ => ⟨h₁, h₂, h₃, h₄, h₅, h₆⟩, fun h =>
      ⟨h.toArranged, h.reached, h.scratchFits, h.outputsFit, h.outside, h.off⟩⟩

end Decidable

/-- What a run reports. -/
def finalReport (sites : Sites) (x : Texts) : Report :=
  { x.report sites with products := (x.report sites).products ++ [⟨.dataSource, sites.publishedSource⟩] }

/-- What stands at a location after a run. -/
def outcome (directory : Location) (sites : Sites) (x : Texts) (source : Bytes) (t : FileTree) (l : Location) :
    Option Entry :=
  if l = target directory sites.publishedTable then some (.file x.lookupTable.published.encode)
  else if l = target directory sites.publishedHeader then some (.file x.completed.text.published.encode)
  else if l = target directory sites.publishedSource then some (.file source)
  else if target directory sites.scratchDirectory <+: l then none
  else if l ∈ sites.ways directory then some .directory
  else t.get? l

namespace Ready

variable {directory : Location} {sites : Sites} {x : Texts} {source : Bytes} {t u u' : FileTree} {p p' : Path}

theorem start_scratch (h : Ready directory sites x source t) :
    t.get? (start directory sites.scratchDirectory) = some .directory ∧
      ¬ target directory sites.scratchDirectory <+: start directory sites.scratchDirectory :=
  ⟨get?_start_join sites.scratch (get?_start_of_reachesDirectory h.root), h.separated.start_apart⟩

theorem claimable (h : Ready directory sites x source t) : Scratch.Claimable directory sites.scratchDirectory t where
  ends := h.separated.name
  outside := h.outside
  fits := by
    obtain ⟨up, n, hends⟩ := h.separated.name
    have hseed := ScratchFiles.inside_seed sites.scratchDirectory
    have hstep := hseed.name.step
    refine h.scratchFits.seed.of_isPrefix (hseed.path ▸ Path.prefix_join _ (Path.isAbsolute_name hstep.2)) ?_
      (hseed.path ▸ Path.steps_join_step _ hstep ▸ List.prefix_append _ _)
    intro hnil
    have hsteps := hends.steps
    rw [hnil] at hsteps
    simp at hsteps
  start := h.start_scratch.1
  apart := h.start_scratch.2
  free q hq := h.free q (Sites.mem_ways.mpr (Or.inl hq))
  reached := h.reached

/-- Published files are not on the way to each other. -/
theorem off_way (h : Ready directory sites x source t) (hp : p ∈ sites.outputs) (hp' : p' ∈ sites.outputs) :
    target directory p ∉ way directory p' := by
  intro hmem
  rcases (Sites.below_output hp').mem_way hmem with hroot | ⟨-, hpre, hne⟩
  · exact h.outputs p hp (get?_of_reachesDirectory h.root _ (List.mem_cons_of_mem _ hroot))
  · exact hne (h.separated.eq_of_isPrefix hp hp' hpre)

theorem clear_output (h : Ready directory sites x source t) (hp : p ∈ sites.outputs) :
    ∀ l ∈ target directory p :: way directory p, ¬ target directory sites.scratchDirectory <+: l :=
  h.separated.clear (List.mem_append_right _ hp)

/-- A tree on the way of a run from `t`: where no file is published, only directories were added. -/
structure Ahead (directory : Location) (sites : Sites) (t u : FileTree) : Prop where
  kept : Kept (fun l => ¬ target directory sites.scratchDirectory <+: l ∧ ∀ p ∈ sites.outputs, l ≠ target directory p)
    (sites.ways directory) t u
  outputs : ∀ p ∈ sites.outputs, u.get? (target directory p) ≠ some .directory

theorem open_of_ahead (h : Ready directory sites x source t) (hu : Ahead directory sites t u) (hp : p ∈ sites.outputs) :
    Publication.Open directory p u := by
  have hbelow := Sites.below_output hp
  have hway : ∀ l ∈ way directory p, ¬ target directory sites.scratchDirectory <+: l ∧
      ∀ p ∈ sites.outputs, l ≠ target directory p := fun l hl =>
    ⟨h.clear_output hp l (List.mem_cons_of_mem _ hl), fun p' hp' he => h.off_way hp' hp (he ▸ hl)⟩
  refine ⟨hbelow.endsIn, hbelow.not_slashed, h.outputsFit p hp, ?_, fun q hq => ?_, hu.outputs p hp, h.off_way hp hp⟩
  · rw [hbelow.start_eq]
    exact hu.kept.get? (hway _ (hbelow.start_mem_way directory)) (get?_start_of_reachesDirectory h.root)
  · exact hu.kept.free (hway q hq) (h.free q (Sites.mem_ways_of_output hp hq))

theorem ahead_of_published (h : Ready directory sites x source t) (hu : Ahead directory sites t u)
    (hp : p ∈ sites.outputs) {y : Bytes} (hget : ∀ l, u'.get? l = if l = target directory p then some (.file y)
      else if l ∈ way directory p then some .directory else u.get? l) : Ahead directory sites t u' where
  kept l hl := by
    rw [hget, if_neg (hl.2 p hp)]
    split
    · next hway =>
      have hmem := Sites.mem_ways_of_output hp hway
      rcases h.free l hmem with hnone | hdir
      · exact Or.inr ⟨hmem, hnone, rfl⟩
      · exact Or.inl hdir.symm
    · exact hu.kept l hl
  outputs p' hp' := by
    rw [hget]
    split
    · simp
    · rw [if_neg (h.off_way hp' hp)]
      exact hu.outputs p' hp'

theorem working_of_published (h : Ready directory sites x source t) {before : FileTree} {content : Name → Option Bytes}
    (hw : Working directory sites.scratchDirectory before content u) (hp : p ∈ sites.outputs) {y : Bytes}
    (hget : ∀ l, u'.get? l = if l = target directory p then some (.file y)
      else if l ∈ way directory p then some .directory else u.get? l) :
    Working directory sites.scratchDirectory u' content u' := by
  have hclear := h.clear_output hp
  have hunder {l : Location} (hl : target directory sites.scratchDirectory <+: l) : u'.get? l = u.get? l := by
    rw [hget, if_neg (by rintro rfl; exact hclear _ List.mem_cons_self hl),
      if_neg fun hway => hclear l (List.mem_cons_of_mem _ hway) hl]
  refine ⟨hw.outside, fun q hq => ?_, by rw [hunder List.prefix_rfl, hw.claimed], fun n => ?_, fun _ _ => rfl⟩
  · have hne : q ≠ target directory p := fun he => h.off p hp (he ▸ hq)
    rw [hget, if_neg hne, hw.way q hq, ite_self]
  · rw [hunder (List.prefix_append _ _), hw.files]

theorem does_release (h : Ready directory sites x source t) {before : FileTree} {content : Name → Option Bytes}
    {calls : List CallRecord} {q : Progress} {table header : Text} (hu : Ahead directory sites t q.tree)
    (hw : Working directory sites.scratchDirectory before content q.tree)
    (htable : content ScratchFiles.tableName = some table.encode)
    (hheader : content ScratchFiles.finalName = some header.encode) :
    Run.Does calls (release directory sites (.inside sites.scratchDirectory)) q fun _ q' =>
      q'.calls = q.calls ∧ Ahead directory sites t q'.tree ∧
      Working directory sites.scratchDirectory q'.tree content q'.tree ∧ ∀ l, q'.tree.get? l =
        if l = target directory sites.publishedHeader then some (.file header.published.encode)
        else if l ∈ way directory sites.publishedHeader then some .directory
        else if l = target directory sites.publishedTable then some (.file table.published.encode)
        else if l ∈ way directory sites.publishedTable then some .directory else q.tree.get? l := by
  have hfirst : sites.publishedTable ∈ sites.outputs := by simp [Sites.outputs]
  have hsecond : sites.publishedHeader ∈ sites.outputs := by simp [Sites.outputs]
  obtain ⟨t₁, hrun₁, hget₁⟩ := Publication.run_publish (h.open_of_ahead hu hfirst)
    (hw.readText (ScratchFiles.inside_table _) h.scratchFits.lookupTable htable)
  have hu₁ := h.ahead_of_published hu hfirst hget₁
  have hw₁ := h.working_of_published hw hfirst hget₁
  obtain ⟨t₂, hrun₂, hget₂⟩ := Publication.run_publish (h.open_of_ahead hu₁ hsecond)
    (hw₁.readText (ScratchFiles.inside_final _) h.scratchFits.finalHeader hheader)
  rw [release]
  refine Run.Does.bind_change hrun₁ (Run.Does.change hrun₂ ⟨rfl, h.ahead_of_published hu₁ hsecond hget₂,
    h.working_of_published hw₁ hsecond hget₂, fun l => ?_⟩)
  rw [hget₂, hget₁]

theorem ahead_of_claim (h : Ready directory sites x source t) (hget : ∀ l, u.get? l =
    if l = target directory sites.scratchDirectory then some .directory
    else if target directory sites.scratchDirectory <+: l then none
    else if l ∈ way directory sites.scratchDirectory then some .directory else t.get? l) :
    Ahead directory sites t u where
  kept l hl := by
    rw [hget, if_neg (by rintro rfl; exact hl.1 List.prefix_rfl), if_neg hl.1]
    split
    · next hway =>
      have hmem := Sites.mem_ways.mpr (Or.inl hway)
      rcases h.free l hmem with hnone | hdir
      · exact Or.inr ⟨hmem, hnone, rfl⟩
      · exact Or.inl hdir.symm
    · exact Or.inl rfl
  outputs p hp := by
    have hclear := h.clear_output hp _ List.mem_cons_self
    have hne : target directory p ≠ target directory sites.scratchDirectory := fun he => hclear (he ▸ List.prefix_rfl)
    rw [hget, if_neg hne, if_neg hclear, if_neg (h.off p hp)]
    exact h.outputs p hp

theorem Ahead.congr (hu : Ahead directory sites t u) (h : sites.Separated directory)
    (hget : ∀ l, ¬ target directory sites.scratchDirectory <+: l → u'.get? l = u.get? l) :
    Ahead directory sites t u' where
  kept l hl := by
    rw [hget l hl.1]
    exact hu.kept l hl
  outputs p hp := by
    rw [hget _ (h.clear (List.mem_append_right _ hp) _ List.mem_cons_self)]
    exact hu.outputs p hp

theorem supplied (h : Ready directory sites x source t)
    (hkept : Kept (¬ target directory sites.scratchDirectory <+: ·) (way directory sites.scratchDirectory) t u) :
    Supplied directory sites sites.scratchDirectory x u := by
  have hclear {p : Path} (hp : p ∈ sites.inputs) := h.separated.clear (List.mem_append_left _ hp)
  refine ⟨hkept.readText (hclear ?_) h.fullNumbering, hkept.readText (hclear ?_) h.fullHeader,
    hkept.readText (hclear ?_) h.compatHeader, fun p hp => hclear ?_⟩
  · simp [Sites.inputs]
  · simp [Sites.inputs]
  · simp [Sites.inputs]
  · simp only [List.mem_cons, List.not_mem_nil, or_false] at hp
    rcases hp with rfl | rfl | rfl <;> simp [Sites.inputs]

theorem read_dataSource (h : Ready directory sites x source t) (hu : Ahead directory sites t u) :
    u.read directory sites.dataSource = .ok source := by
  refine hu.kept.read (fun l hl => ⟨h.separated.clear (by simp [Sites.inputs]) l hl, fun p hp he => ?_⟩) h.dataSource
  obtain ⟨_, hlocate, -⟩ := read_eq_ok.mp h.dataSource
  rcases List.mem_cons.mp hl with rfl | hl
  · exact h.separated.input_ne (by simp [Sites.inputs]) hp he
  · exact h.outputs p hp (he ▸ (locate_eq_ok.mp hlocate).2.2.1 l hl)

/-- What the steps of a run leave, one after the other, is the outcome. -/
theorem outcome_eq (h : Ready directory sites x source t) (l : Location) :
    outcome directory sites x source t l =
      if l = target directory sites.publishedSource then some (.file source)
      else if l ∈ way directory sites.publishedSource then some .directory
      else if target directory sites.scratchDirectory <+: l then none
      else if l = target directory sites.publishedHeader then some (.file x.completed.text.published.encode)
      else if l ∈ way directory sites.publishedHeader then some .directory
      else if l = target directory sites.publishedTable then some (.file x.lookupTable.published.encode)
      else if l ∈ way directory sites.publishedTable then some .directory
      else if l ∈ way directory sites.scratchDirectory then some .directory
      else t.get? l := by
  have ht : sites.publishedTable ∈ sites.outputs := by simp [Sites.outputs]
  have hh : sites.publishedHeader ∈ sites.outputs := by simp [Sites.outputs]
  have hs : sites.publishedSource ∈ sites.outputs := by simp [Sites.outputs]
  obtain ⟨htable, hsource, hheader⟩ := h.separated.outputs_ne
  rw [outcome]
  -- the published files are not on each other's ways, nor in the scratch directory, so the order is free
  by_cases h₁ : l = target directory sites.publishedTable
  · have hclear := h.clear_output ht _ List.mem_cons_self
    rw [if_pos h₁, h₁, if_neg hsource, if_neg (h.off_way ht hs), if_neg hclear, if_neg htable,
      if_neg (h.off_way ht hh), if_pos rfl]
  · rw [if_neg h₁]
    by_cases h₂ : l = target directory sites.publishedHeader
    · have hclear := h.clear_output hh _ List.mem_cons_self
      rw [if_pos h₂, h₂, if_neg hheader, if_neg (h.off_way hh hs), if_neg hclear, if_pos rfl]
    · rw [if_neg h₂, if_neg h₁, if_neg h₂]
      by_cases h₃ : l = target directory sites.publishedSource
      · rw [if_pos h₃, if_pos h₃]
      · rw [if_neg h₃, if_neg h₃]
        by_cases hunder : target directory sites.scratchDirectory <+: l
        · rw [if_pos hunder, if_neg fun hway => h.clear_output hs l (List.mem_cons_of_mem _ hway) hunder, if_pos hunder]
        · rw [if_neg hunder, if_neg hunder]
          simp only [Sites.ways, Sites.outputs, List.flatMap_cons, List.flatMap_nil, List.append_nil, List.mem_append]
          split
          · next hmem => rcases hmem with hmem | hmem | hmem | hmem <;> simp [hmem]
          · next hmem =>
            simp only [not_or] at hmem
            obtain ⟨hw₁, hw₂, hw₃, hw₄⟩ := hmem
            rw [if_neg hw₄, if_neg hw₃, if_neg hw₂, if_neg hw₁]

/-- What a run has published when it releases its scratch directory. -/
theorem does_work (h : Ready directory sites x source t) {tool : Tool} {calls : List CallRecord} {q : Progress}
    (e : Equipped directory tool sites sites.scratchDirectory x u calls) (hcalls : q.calls.length = 0)
    (hu : Ahead directory sites t u) (hw : Working directory sites.scratchDirectory u (fun _ => none) q.tree) :
    Run.Does calls (work directory tool sites (.inside sites.scratchDirectory)) q fun r q' =>
      r = x.report sites ∧ q'.calls.length = 3 ∧ Ahead directory sites t q'.tree ∧
      q'.tree.reachesDirectory directory sites.scratchDirectory = true ∧
      ∀ l, ¬ target directory sites.scratchDirectory <+: l → q'.tree.get? l =
        if l = target directory sites.publishedHeader then some (.file x.completed.text.published.encode)
        else if l ∈ way directory sites.publishedHeader then some .directory
        else if l = target directory sites.publishedTable then some (.file x.lookupTable.published.encode)
        else if l ∈ way directory sites.publishedTable then some .directory else u.get? l := by
  rw [work_eq]
  refine Run.Does.bind (does_prepare e hcalls hw) fun r q₁ hq₁ => ?_
  obtain ⟨rfl, hcalls₁, content, hw₁, htable, hheader⟩ := hq₁
  have hu₁ := hu.congr h.separated hw₁.others
  refine Run.Does.bind (h.does_release hu₁ hw₁ htable hheader) fun _ q₂ hq₂ => ?_
  obtain ⟨hcalls₂, hu₂, hw₂, hget₂⟩ := hq₂
  refine Run.Does.pure ⟨rfl, hcalls₂ ▸ hcalls₁, hu₂, reachesDirectory_of h.claimable.fits hw₂.way hw₂.claimed,
    fun l hl => ?_⟩
  rw [hget₂, hw₁.others l hl]

end Ready

theorem working_of_claim {directory : Location} {scratch : Path} {t u : FileTree} (houtside : Outside directory scratch)
    (hget : ∀ l, u.get? l = if l = target directory scratch then some .directory
      else if target directory scratch <+: l then none
      else if l ∈ way directory scratch then some .directory else t.get? l) :
    Working directory scratch u (fun _ => none) u := by
  have hself : u.get? (target directory scratch) = some .directory := by rw [hget, if_pos rfl]
  refine ⟨houtside, fun q hq => ?_, hself, fun n => ?_, fun _ _ => rfl⟩
  · by_cases hunder : target directory scratch <+: q
    · rw [houtside q hq hunder, hself]
    · rw [hget, if_neg (by rintro rfl; exact hunder List.prefix_rfl), if_neg hunder, if_pos hq]
  · rw [hget, if_neg (by simp), if_pos (List.prefix_append _ _)]
    rfl

/-- A run that is ready and whose calls are answered succeeds, and it leaves its outcome. -/
theorem run_outcome {directory : Location} {tool : Tool} {sites : Sites} {x : Texts} {source : Bytes} {t : FileTree}
    (h : Ready directory sites x source t)
    (hanswered : Answered directory tool x.answers ((run directory tool sites).run { tree := t }).2.calls) :
    ∃ p, (run directory tool sites).run { tree := t } = (.ok (finalReport sites x), p) ∧ p.calls.length = 3 ∧
      ∀ l, p.tree.get? l = outcome directory sites x source t l := by
  obtain ⟨up, n, hends⟩ := h.separated.name
  obtain ⟨t₁, hclaim, hget₁⟩ := Scratch.run_claim h.claimable
  have hkept₁ := (Scratch.keeps_claim directory hends).of_run hclaim
  have hu₁ := h.ahead_of_claim hget₁
  have hw₁ := working_of_claim h.outside hget₁
  -- the answers are to the calls of the whole run, so what each part does is stated for these calls
  generalize hcalls : ((run directory tool sites).run { tree := t }).2.calls = calls at hanswered
  have e : Equipped directory tool sites sites.scratchDirectory x t₁ calls :=
    ⟨h.scratchFits, h.supplied hkept₁, hanswered⟩
  suffices hdoes : Run.Does calls (run directory tool sites) { tree := t }
      fun r p => r = finalReport sites x ∧ p.calls.length = 3 ∧
        ∀ l, p.tree.get? l = outcome directory sites x source t l by
    obtain ⟨r, p, hrun, rfl, hp⟩ := hdoes (hcalls ▸ List.prefix_rfl)
    exact ⟨p, hrun, hp⟩
  rw [run]
  refine Run.Does.bind_change hclaim (Run.Does.bind (Run.Does.under (h.does_work e rfl hu₁ hw₁)) fun r q hq => ?_)
  obtain ⟨rfl, hcalls₂, hu₂, hreached, hget₂⟩ := hq
  obtain ⟨t₃, hremove, herased⟩ := Scratch.run_remove_of_reaches hends h.outside hreached
  have hclose := (Scratch.run_close directory ⟨sites.scratchDirectory, false⟩ q.tree).trans hremove
  have hu₃ := hu₂.congr h.separated fun l hl => by rw [herased, if_neg hl]
  have hsource : sites.publishedSource ∈ sites.outputs := by simp [Sites.outputs]
  obtain ⟨t₄, hcopy, hget₄⟩ := Publication.run_copy (h.open_of_ahead hu₃ hsource) (h.read_dataSource hu₃)
  have hinput : sites.dataSource ∈ sites.inputs := by simp [Sites.inputs]
  rw [if_neg (h.separated.input_ne hinput hsource)] at hget₄
  refine Run.Does.bind_change hclose (Run.Does.bind_change hcopy (Run.Does.pure ⟨rfl, hcalls₂, fun l => ?_⟩))
  rw [h.outcome_eq, hget₄, herased]
  by_cases hl : target directory sites.scratchDirectory <+: l
  · rw [if_pos hl, if_pos hl]
  · have hne : l ≠ target directory sites.scratchDirectory := fun he => hl (he ▸ List.prefix_rfl)
    rw [if_neg hl, if_neg hl, hget₂ l hl, hget₁, if_neg hne, if_neg hl]

/-- A run in the small system. -/
theorem run_outcome_small : ∃ p,
    (run [] (Rehearsal.tool [] Small.plans) (Small.sites (Path.ofString "tempobj"))).run { tree := Small.system [] } =
      (.ok (finalReport (Small.sites (Path.ofString "tempobj")) Small.texts), p) ∧ p.calls.length = 3 ∧
    ∀ l, p.tree.get? l =
      outcome [] (Small.sites (Path.ofString "tempobj")) Small.texts Small.source (Small.system []) l :=
  run_outcome (by decide +kernel) (Rehearsal.answered (by decide +kernel))

/-- In the small system, a run that has all it is promised and whose calls are answered fails. -/
def FailsArranged (scratch : Path) (more : List (Name × Node)) : Prop :=
  Arranged [] (Small.sites scratch) Small.texts Small.source (Small.system more) ∧
  Answered [] (Rehearsal.tool [] Small.plans) Small.texts.answers
    ((run [] (Rehearsal.tool [] Small.plans) (Small.sites scratch)).run { tree := Small.system more }).2.calls ∧
  ∃ f p, (run [] (Rehearsal.tool [] Small.plans) (Small.sites scratch)).run { tree := Small.system more } =
    (.error f, p)

theorem FailsArranged.of_played {scratch : Path} {more : List (Name × Node)}
    (h : Arranged [] (Small.sites scratch) Small.texts Small.source (Small.system more) ∧
      (∀ a ∈ ((run [] (Rehearsal.tool [] Small.plans) (Small.sites scratch)).run
          { tree := Small.system more }).2.calls.zip Small.texts.answers,
        Small.plans.plan (Rehearsal.stageOf a.1.call) = .printing a.2 ∧
          a.1.found.writable [] a.1.call.output = .ok (target [] a.1.call.output)) ∧
      ((run [] (Rehearsal.tool [] Small.plans) (Small.sites scratch)).run
        { tree := Small.system more }).1.isOk = false) : FailsArranged scratch more :=
  ⟨h.1, Rehearsal.answered h.2.1, run_eq_error_of_isOk h.2.2⟩

/-- What a run is promised is not enough: the scratch path may not reach the scratch directory, lead through its
    inside or through a published file's place, or have too long a name. -/
theorem arranged_not_enough :
    FailsArranged (Path.ofString "gone/../tempobj") [Small.folder "tempobj" [Small.folder "obj_mac.num" []]] ∧
    FailsArranged (Path.ofString "tempobj/obj_mac.num/../../tempobj") [] ∧
    FailsArranged (Path.ofString "openssl/obj_mac.h/../../tempobj") [] ∧
    FailsArranged (List.replicate 256 0x61) [] :=
  ⟨.of_played (by decide +kernel), .of_played (by decide +kernel), .of_played (by decide +kernel),
    .of_played (by decide +kernel)⟩

end Regeneration

end ObjectTables
