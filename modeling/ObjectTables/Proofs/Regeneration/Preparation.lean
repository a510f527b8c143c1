import ObjectTables.Proofs.Regeneration.Working

/-! What a run has made ready before it publishes anything. The part up to the first publication is
    `prepare`. If the inputs can be read and the calls are answered by texts, it succeeds, and it leaves the
    lookup table and the completed header in the scratch directory (`does_prepare`). -/

namespace ObjectTables

open FileTree Run

/-- The texts that a run is made of: those that it reads and those that the generator writes for it. -/
structure Texts where
  fullNumbering : Text
  fullHeader : Text
  compatHeader : Text
  numbering : Text
  header : Text
  lookupTable : Text

namespace Texts

/-- The full numbering. -/
def full (x : Texts) : Numbering := Numbering.ofText x.fullNumbering

/-- The full numbering trimmed to the candidates. -/
def trimmed (x : Texts) : Numbering := x.full.trim (Numbering.listedSymbols x.numbering)

/-- The header with the aliases. -/
def merged (x : Texts) : Text := Header.appendAliases x.header x.compatHeader

/-- The header with the aliases and the placeholders. -/
def completed (x : Texts) : Header.Completed := Header.complete x.fullHeader x.merged

/-- What the generator writes, in the order of its calls. -/
def answers (x : Texts) : List Text := [x.numbering, x.header, x.lookupTable]

/-- What a run reports before it copies the source file. -/
def report (x : Texts) (sites : Sites) : Report where
  products := [⟨.lookupTable, sites.publishedTable⟩, ⟨.symbolHeader, sites.publishedHeader⟩]
  retained := x.trimmed.size
  total := x.full.size
  missing := x.completed.missing

end Texts

namespace ScratchFiles

def seedName : Name := Path.ofString "obj_mac.num"

def numberingName : Name := Path.ofString "obj_mac.new"

def headerName : Name := Path.ofString "obj_mac.h.new"

def tableName : Name := Path.ofString "obj_dat.h"

def finalName : Name := Path.ofString "obj_mac.h"

theorem inside_seed (scratch : Path) : Regeneration.Inside scratch (ScratchFiles.inside scratch).seed seedName :=
  ⟨rfl, by decide⟩

theorem inside_numbering (scratch : Path) :
    Regeneration.Inside scratch (ScratchFiles.inside scratch).numbering numberingName := ⟨rfl, by decide⟩

theorem inside_header (scratch : Path) : Regeneration.Inside scratch (ScratchFiles.inside scratch).header headerName :=
  ⟨rfl, by decide⟩

theorem inside_table (scratch : Path) :
    Regeneration.Inside scratch (ScratchFiles.inside scratch).lookupTable tableName := ⟨rfl, by decide⟩

theorem inside_final (scratch : Path) :
    Regeneration.Inside scratch (ScratchFiles.inside scratch).finalHeader finalName := ⟨rfl, by decide⟩

/-- The paths of the scratch files are within the limits. -/
structure Fit (scratch : Path) : Prop where
  seed : Fits (ScratchFiles.inside scratch).seed
  numbering : Fits (ScratchFiles.inside scratch).numbering
  header : Fits (ScratchFiles.inside scratch).header
  lookupTable : Fits (ScratchFiles.inside scratch).lookupTable
  finalHeader : Fits (ScratchFiles.inside scratch).finalHeader

instance (scratch : Path) : Decidable (Fit scratch) :=
  decidable_of_iff (Fits (ScratchFiles.inside scratch).seed ∧ Fits (ScratchFiles.inside scratch).numbering ∧
      Fits (ScratchFiles.inside scratch).header ∧ Fits (ScratchFiles.inside scratch).lookupTable ∧
      Fits (ScratchFiles.inside scratch).finalHeader)
    ⟨fun ⟨h₁, h₂, h₃, h₄, h₅⟩ => ⟨h₁, h₂, h₃, h₄, h₅⟩,
      fun h => ⟨h.seed, h.numbering, h.header, h.lookupTable, h.finalHeader⟩⟩

theorem header_ne_table : headerName ≠ tableName := by decide

theorem table_ne_final : tableName ≠ finalName := by decide

end ScratchFiles

namespace Regeneration

/-- The part of a run before the publications. -/
def prepare (directory : Location) (tool : Tool) (sites : Sites) (files : ScratchFiles) : Run Report := do
  Run.change (Publication.writeText directory files.seed Numbering.seed)
  let numberings ← trimNumbering directory tool sites files
  Run.note (.kept numberings.2.size numberings.1.size)
  let _ ← Run.generate tool (.ofSites sites) .header [sites.whitelist, files.numbering] files.header
  let _ ← Run.generate tool (.ofSites sites) .lookupTable [files.header] files.lookupTable
  let missing ← completeHeader directory sites files
  return {
    products := [⟨.lookupTable, sites.publishedTable⟩, ⟨.symbolHeader, sites.publishedHeader⟩]
    retained := numberings.2.size
    total := numberings.1.size
    missing := missing }

/-- The publications of a run. -/
def release (directory : Location) (sites : Sites) (files : ScratchFiles) : Run Unit := do
  Run.change (Publication.publish directory files.lookupTable sites.publishedTable)
  Run.change (Publication.publish directory files.finalHeader sites.publishedHeader)

theorem work_eq (directory : Location) (tool : Tool) (sites : Sites) (files : ScratchFiles) :
    work directory tool sites files = do
      let report ← prepare directory tool sites files
      release directory sites files
      return report := by
  simp only [work, prepare, release, bind_assoc, pure_bind]

/-- Says that the placeholders find no place, if they need one. -/
def noteGuard (full merged : Text) : Run Unit :=
  if Header.lacksGuard full merged then Run.note .noGuard else pure ()

theorem completeHeader_eq (directory : Location) (sites : Sites) (files : ScratchFiles) :
    completeHeader directory sites files = (do
      Run.change (Publication.appendAliases directory files.header sites.compatHeader)
      let full ← Run.change (Publication.readText directory sites.fullHeader)
      let merged ← Run.change (Publication.readText directory files.header)
      noteGuard full merged
      Run.change (Publication.writeText directory files.finalHeader (Header.complete full merged).text)
      Run.note (.completed (Header.complete full merged).missing.length)
      return (Header.complete full merged).missing) := by
  rw [completeHeader]
  dsimp only
  refine bind_congr fun _ => bind_congr fun full => bind_congr fun merged => ?_
  rw [noteGuard]
  split
  · rfl
  · rfl

theorem run_noteGuard (full merged : Text) (q : Progress) :
    ∃ notices, (noteGuard full merged).run q = (.ok (), { q with notices := notices }) ∧
      (Notice.noGuard ∈ notices ↔ Notice.noGuard ∈ q.notices ∨ Header.lacksGuard full merged = true) := by
  rw [noteGuard]
  split
  · next h => exact ⟨_, rfl, by simp [h]⟩
  · next h => exact ⟨_, rfl, by simp [h]⟩

instance (directory : Location) (sites : Sites) (files : ScratchFiles) :
    Grows (completeHeader directory sites files) := by
  unfold completeHeader
  infer_instance

instance (directory : Location) (sites : Sites) (files : ScratchFiles) : Grows (release directory sites files) := by
  unfold release
  infer_instance

section Does

variable {directory : Location} {tool : Tool} {sites : Sites} {scratch : Path} {before : FileTree} {x : Texts}
  {calls : List CallRecord} {content : Name → Option Bytes} {q : Progress}

/-- The inputs of a run hold their texts, and no path to them leads through the scratch directory. -/
structure Supplied (directory : Location) (sites : Sites) (scratch : Path) (x : Texts) (t : FileTree) : Prop where
  fullNumbering : t.readText directory sites.fullNumbering = .ok x.fullNumbering
  fullHeader : t.readText directory sites.fullHeader = .ok x.fullHeader
  compatHeader : t.readText directory sites.compatHeader = .ok x.compatHeader
  clear : ∀ p ∈ [sites.fullNumbering, sites.fullHeader, sites.compatHeader],
    ∀ l ∈ target directory p :: way directory p, ¬ target directory scratch <+: l

/-- What a run in a scratch directory relies on: paths within the limits, inputs, and answers to its calls. -/
structure Equipped (directory : Location) (tool : Tool) (sites : Sites) (scratch : Path) (x : Texts)
    (before : FileTree) (calls : List CallRecord) : Prop where
  fits : ScratchFiles.Fit scratch
  supplied : Supplied directory sites scratch x before
  answered : Answered directory tool x.answers calls

theorem does_trimNumbering (e : Equipped directory tool sites scratch x before calls) (hcalls : q.calls.length = 0)
    (h : Working directory scratch before content q.tree) :
    Run.Does calls (trimNumbering directory tool sites (.inside scratch)) q fun r q' =>
      r = (x.full, x.trimmed) ∧ (∃ content, Working directory scratch before content q'.tree) ∧
      q'.calls.length = 1 := by
  have htext : x.answers[q.calls.length]? = some x.numbering := by rw [hcalls]; rfl
  rw [trimNumbering]
  refine Run.Does.bind (does_generate e.answered htext (ScratchFiles.inside_numbering scratch) h _ _ _)
    fun _ q₁ ⟨h₁, hcalls₁⟩ => ?_
  have hfull := h₁.readText_before (e.supplied.clear _ (by simp)) e.supplied.fullNumbering
  have hcandidates := h₁.readText (ScratchFiles.inside_numbering scratch) e.fits.numbering (put_self _ _ _)
  refine Run.Does.bind_change (Publication.run_readText_of_ok hfull) ?_
  refine Run.Does.bind_change (Publication.run_readText_of_ok hcandidates) ?_
  obtain ⟨t₂, hwrite, h₂⟩ := h₁.run_writeText (ScratchFiles.inside_numbering scratch) e.fits.numbering x.trimmed.toText
  refine Run.Does.bind_change hwrite (Run.Does.pure ⟨rfl, ⟨_, h₂⟩, ?_⟩)
  rw [hcalls₁, hcalls]

theorem does_completeHeader (e : Equipped directory tool sites scratch x before calls)
    (hheader : content ScratchFiles.headerName = some x.header.encode)
    (h : Working directory scratch before content q.tree) :
    Run.Does calls (completeHeader directory sites (.inside scratch)) q fun r q' =>
      r = x.completed.missing ∧ q'.calls = q.calls ∧ Working directory scratch before
        (put (put content ScratchFiles.headerName x.merged.encode) ScratchFiles.finalName x.completed.text.encode)
        q'.tree := by
  obtain ⟨t₁, hwrite, h₁⟩ := h.run_writeText (ScratchFiles.inside_header scratch) e.fits.header x.merged
  have happend : (Publication.appendAliases directory (ScratchFiles.inside scratch).header sites.compatHeader).run
      q.tree = (.ok (), t₁) := by
    have hread := h.readText (ScratchFiles.inside_header scratch) e.fits.header hheader
    have hcompat := h.readText_before (e.supplied.clear _ (by simp)) e.supplied.compatHeader
    rw [Publication.appendAliases, run_bind_of_ok (Publication.run_readText_of_ok hread),
      run_bind_of_ok (Publication.run_readText_of_ok hcompat)]
    exact hwrite
  have hfull := h₁.readText_before (e.supplied.clear _ (by simp)) e.supplied.fullHeader
  have hmerged := h₁.readText (ScratchFiles.inside_header scratch) e.fits.header (put_self _ _ _)
  obtain ⟨t₂, hwrite, h₂⟩ := h₁.run_writeText (ScratchFiles.inside_final scratch) e.fits.finalHeader x.completed.text
  obtain ⟨notices, hguard, -⟩ := run_noteGuard x.fullHeader x.merged { q with tree := t₁ }
  rw [completeHeader_eq]
  refine Run.Does.bind_change happend ?_
  refine Run.Does.bind_change (Publication.run_readText_of_ok hfull) ?_
  refine Run.Does.bind_change (Publication.run_readText_of_ok hmerged) ?_
  refine Run.Does.bind_of_ok hguard (Run.Does.bind_change hwrite ?_)
  exact Run.Does.bind_note fun _ => Run.Does.pure ⟨rfl, rfl, h₂⟩

/-- If its inputs can be read and its calls are answered, a run makes ready what it publishes. -/
theorem does_prepare (e : Equipped directory tool sites scratch x before calls) (hcalls : q.calls.length = 0)
    (h : Working directory scratch before content q.tree) :
    Run.Does calls (prepare directory tool sites (.inside scratch)) q fun r q' =>
      r = x.report sites ∧ q'.calls.length = 3 ∧ ∃ content, Working directory scratch before content q'.tree ∧
        content ScratchFiles.tableName = some x.lookupTable.encode ∧
        content ScratchFiles.finalName = some x.completed.text.encode := by
  obtain ⟨t₁, hwrite, h₁⟩ := h.run_writeText (ScratchFiles.inside_seed scratch) e.fits.seed Numbering.seed
  rw [prepare]
  refine Run.Does.bind_change hwrite ?_
  refine Run.Does.bind (does_trimNumbering e hcalls h₁) fun r q₂ hr => ?_
  obtain ⟨rfl, ⟨content₂, h₂⟩, hcalls₂⟩ := hr
  refine Run.Does.bind_note fun notices => ?_
  have hheader : x.answers[q₂.calls.length]? = some x.header := by rw [hcalls₂]; rfl
  refine Run.Does.bind (does_generate (q := { q₂ with notices := notices }) e.answered hheader
    (ScratchFiles.inside_header scratch) h₂ _ _ _) fun _ q₃ hq₃ => ?_
  obtain ⟨h₃, hcalls₃⟩ := hq₃
  have htable : x.answers[q₃.calls.length]? = some x.lookupTable := by rw [hcalls₃]; dsimp only; rw [hcalls₂]; rfl
  refine Run.Does.bind (does_generate e.answered htable (ScratchFiles.inside_table scratch) h₃ _ _ _)
    fun _ q₄ hq₄ => ?_
  obtain ⟨h₄, hcalls₄⟩ := hq₄
  have hput : put (put content₂ ScratchFiles.headerName x.header.encode) ScratchFiles.tableName x.lookupTable.encode
      ScratchFiles.headerName = some x.header.encode := by
    rw [put_of_ne ScratchFiles.header_ne_table, put_self]
  refine Run.Does.bind (does_completeHeader e hput h₄) fun missing q₅ hr => ?_
  obtain ⟨rfl, hcalls₅, h₅⟩ := hr
  refine Run.Does.pure ⟨rfl, by rw [hcalls₅, hcalls₄, hcalls₃]; dsimp only; rw [hcalls₂], _, h₅, ?_, put_self _ _ _⟩
  rw [put_of_ne ScratchFiles.table_ne_final, put_of_ne ScratchFiles.header_ne_table.symm, put_self]

end Does

end Regeneration

end ObjectTables
