import ObjectTables.Proofs.Regeneration.Refinement

/-! What a run has done to the files when it has come to a point, whatever the calls of the generator come to,
    as long as they touch nothing but their output files. Until it publishes, a run changes the files inside
    its scratch directory only (`keeps_prepare`), and what it then has made ready is a function of texts that
    its inputs held and its calls left (`prepare_eq_ok`). -/

namespace ObjectTables

open FileTree

/-- A file at a location holds a text. -/
def FileTree.Holds (t : FileTree) (l : Location) (text : Text) : Prop :=
  ∃ x, t.get? l = some (.file x) ∧ Bytes.decode? x = some text

namespace FileTree.Holds

variable {t u : FileTree} {l : Location} {text text' : Text}

theorem eq_of_get? (h : t.Holds l text) (hget : t.get? l = some (.file text'.encode)) : text = text' := by
  obtain ⟨x, hx, htext⟩ := h
  rw [hget] at hx
  cases hx
  rw [Bytes.decode?_encode] at htext
  exact (Option.some.inj htext).symm

theorem before {P : Location → Prop} {ls : List Location} (h : u.Holds l text) (hkept : Kept P ls t u) (hP : P l) :
    t.Holds l text := by
  obtain ⟨x, hx, htext⟩ := h
  rcases hkept l hP with heq | ⟨-, -, hdir⟩
  · exact ⟨x, heq ▸ hx, htext⟩
  · rw [hdir] at hx
    cases hx

end FileTree.Holds

/-- A call has left a text in its output file. -/
def CallRecord.Left (directory : Location) (tool : Tool) (r : CallRecord) (text : Text) : Prop :=
  ((tool r.call).run r.found).2.Holds (target directory r.call.output) text

namespace Regeneration

open Run

/-- The texts that a run is made of: its inputs held them before, and its calls have left them. -/
structure Obtained (directory : Location) (tool : Tool) (sites : Sites) (t : FileTree) (calls : List CallRecord)
    (x : Texts) : Prop where
  fullNumbering : t.Holds (target directory sites.fullNumbering) x.fullNumbering
  fullHeader : t.Holds (target directory sites.fullHeader) x.fullHeader
  compatHeader : t.Holds (target directory sites.compatHeader) x.compatHeader
  answers : ∃ r₁ r₂ r₃, calls = [r₁, r₂, r₃] ∧ r₁.Left directory tool x.numbering ∧
    r₂.Left directory tool x.header ∧ r₃.Left directory tool x.lookupTable

variable {directory l : Location} {tool : Tool} {sites : Sites} {scratch file : Path} {n : Name} {t u u' : FileTree}
  {q q' : Progress}

/-! ### Inside the scratch directory -/

/-- A location is not inside the scratch directory, but it may be the directory itself. -/
def Apart (directory : Location) (scratch : Path) (l : Location) : Prop :=
  target directory scratch <+: l → l = target directory scratch

theorem Inside.not_isPrefix (hf : Inside scratch file n) (hl : Apart directory scratch l) :
    ¬ target directory file <+: l := by
  rw [hf.target_eq]
  intro hpre
  have hl := hl ((List.prefix_append _ _).trans hpre)
  have hlen := hpre.length_le
  rw [hl, List.length_append] at hlen
  exact absurd hlen (Nat.not_succ_le_self _)

theorem Inside.ne_target (hf : Inside scratch file n) (hl : Apart directory scratch l) : l ≠ target directory file :=
  fun he => hf.not_isPrefix hl (he ▸ List.prefix_rfl)

theorem keeps_writeInside (hf : Inside scratch file n) (text : Text) :
    Keeps (OnTree (Kept (Apart directory scratch) [])) (Run.change (Publication.writeText directory file text)) :=
  keeps_change (Publication.keeps_writeText (fun _ hl => hf.ne_target hl) [])

theorem keeps_readText (P : Location → Prop) (p : Path) :
    Keeps (OnTree (Kept P [])) (Run.change (Publication.readText directory p)) :=
  keeps_change (Publication.keeps_readText P [] directory p)

theorem keeps_generateInside (htool : tool.Confined directory) (hf : Inside scratch file n) (g : Generator)
    (stage : Stage) (inputs : List Path) :
    Keeps (OnTree (Kept (Apart directory scratch) [])) (Run.generate tool g stage inputs file) :=
  keeps_generate fun t _ hl => Or.inl (htool _ t _ (hf.not_isPrefix hl))

theorem trans_onTree {P : Location → Prop} {ls : List Location} (a b c : Progress)
    (h : OnTree (Kept P ls) a b) (h' : OnTree (Kept P ls) b c) : OnTree (Kept P ls) a c := Kept.trans h h'

theorem keeps_trimNumbering (htool : tool.Confined directory) (sites : Sites) :
    Keeps (OnTree (Kept (Apart directory scratch) [])) (trimNumbering directory tool sites (.inside scratch)) :=
  (keeps_generateInside htool (ScratchFiles.inside_numbering scratch) _ _ _).bind trans_onTree fun _ =>
    (keeps_readText _ _).bind trans_onTree fun _ => (keeps_readText _ _).bind trans_onTree fun _ =>
    (keeps_writeInside (ScratchFiles.inside_numbering scratch) _).bind trans_onTree fun _ =>
    keeps_pure (Kept.refl _ _) _

theorem keeps_appendAliases (compat : Path) : Keeps (Kept (Apart directory scratch) [])
    (Publication.appendAliases directory (ScratchFiles.inside scratch).header compat) :=
  (Publication.keeps_readText _ _ _ _).bind (fun _ _ _ => Kept.trans) fun _ =>
    (Publication.keeps_readText _ _ _ _).bind (fun _ _ _ => Kept.trans) fun _ =>
    Publication.keeps_writeText (fun _ hl => (ScratchFiles.inside_header scratch).ne_target hl) []

theorem keeps_noteGuard {R : FileTree → FileTree → Prop} (refl : ∀ t, R t t) (full merged : Text) :
    Keeps (OnTree R) (noteGuard full merged) := by
  intro q
  obtain ⟨notices, hguard, -⟩ := run_noteGuard full merged q
  rw [hguard]
  exact refl q.tree

theorem keeps_completeHeader (sites : Sites) :
    Keeps (OnTree (Kept (Apart directory scratch) [])) (completeHeader directory sites (.inside scratch)) := by
  rw [completeHeader_eq]
  exact (keeps_change (keeps_appendAliases _)).bind trans_onTree fun _ =>
    (keeps_readText _ _).bind trans_onTree fun _ => (keeps_readText _ _).bind trans_onTree fun _ =>
    (keeps_noteGuard (Kept.refl _ _) _ _).bind trans_onTree fun _ =>
    (keeps_writeInside (ScratchFiles.inside_final scratch) _).bind trans_onTree fun _ =>
    (keeps_note (Kept.refl _ _) _).bind trans_onTree fun _ => keeps_pure (Kept.refl _ _) _

/-- Until a run publishes, nothing changes but inside its scratch directory. -/
theorem keeps_prepare (htool : tool.Confined directory) (sites : Sites) :
    Keeps (OnTree (Kept (Apart directory scratch) [])) (prepare directory tool sites (.inside scratch)) :=
  (keeps_writeInside (ScratchFiles.inside_seed scratch) _).bind trans_onTree fun _ =>
    (keeps_trimNumbering htool sites).bind trans_onTree fun _ =>
    (keeps_note (Kept.refl _ _) _).bind trans_onTree fun _ =>
    (keeps_generateInside htool (ScratchFiles.inside_header scratch) _ _ _).bind trans_onTree fun _ =>
    (keeps_generateInside htool (ScratchFiles.inside_table scratch) _ _ _).bind trans_onTree fun _ =>
    (keeps_completeHeader sites).bind trans_onTree fun _ => keeps_pure (Kept.refl _ _) _

/-! ### What has been made ready -/

theorem holds_of_readText {p : Path} {text : Text} (h : t.readText directory p = .ok text) :
    t.Holds (target directory p) text := by
  obtain ⟨x, hx, htext⟩ := readText_eq_ok.mp h
  exact ⟨x, get?_of_read hx, htext⟩

theorem Obtained.before {P : Location → Prop} {ls : List Location} {calls : List CallRecord} {x : Texts}
    (h : Obtained directory tool sites u calls x) (hkept : Kept P ls t u)
    (hP : ∀ p ∈ sites.inputs, P (target directory p)) : Obtained directory tool sites t calls x where
  fullNumbering := FileTree.Holds.before h.fullNumbering hkept (hP _ (by simp [Sites.inputs]))
  fullHeader := FileTree.Holds.before h.fullHeader hkept (hP _ (by simp [Sites.inputs]))
  compatHeader := FileTree.Holds.before h.compatHeader hkept (hP _ (by simp [Sites.inputs]))
  answers := h.answers

theorem readText_run_eq_ok {p : Path} {text : Text}
    (h : (Run.change (Publication.readText directory p)).run q = (.ok text, q')) :
    q'.tree = q.tree ∧ q'.calls = q.calls ∧ q.tree.Holds (target directory p) text := by
  obtain ⟨hrun, hcalls⟩ := change_eq h
  obtain ⟨htree, hread⟩ := Publication.readText_of_run hrun
  exact ⟨htree, hcalls, holds_of_readText hread⟩

theorem writeText_run_eq_ok {p : Path} {text : Text}
    (h : (Run.change (Publication.writeText directory p text)).run q = (.ok (), q')) :
    q'.calls = q.calls ∧ ∀ l, q'.tree.get? l =
      if l = target directory p then some (.file text.encode) else q.tree.get? l := by
  obtain ⟨hrun, hcalls⟩ := change_eq h
  exact ⟨hcalls, Publication.get?_of_writeText hrun⟩

theorem apart_input (h : sites.Separated directory) {p : Path} (hp : p ∈ sites.inputs) :
    Apart directory sites.scratchDirectory (target directory p) := fun hpre =>
  absurd hpre (h.clear (List.mem_append_left _ hp) _ List.mem_cons_self)

theorem trimNumbering_eq_ok (h : sites.Separated directory) (htool : tool.Confined directory)
    {r : Numbering × Numbering}
    (hrun : (trimNumbering directory tool sites (.inside sites.scratchDirectory)).run q = (.ok r, q')) :
    ∃ call numbering full, q'.calls = q.calls ++ [call] ∧ call.Left directory tool numbering ∧
      q.tree.Holds (target directory sites.fullNumbering) full := by
  obtain ⟨_, q₁, hgenerate, hrun⟩ := run_bind_eq_ok hrun
  obtain ⟨full, q₂, hfull, hrun⟩ := run_bind_eq_ok hrun
  obtain ⟨numbering, q₃, hnumbering, hrun⟩ := run_bind_eq_ok hrun
  obtain ⟨_, q₄, hwrite, hrun⟩ := run_bind_eq_ok hrun
  have hinside := ScratchFiles.inside_numbering sites.scratchDirectory
  have hkept := (keeps_generateInside htool hinside _ _ _).of_run hgenerate
  obtain ⟨htool₁, hcalls₁⟩ := generate_eq_ok hgenerate
  obtain ⟨htree₂, hcalls₂, hfull⟩ := readText_run_eq_ok hfull
  obtain ⟨-, hcalls₃, hnumbering⟩ := readText_run_eq_ok hnumbering
  obtain ⟨hcalls₄, -⟩ := writeText_run_eq_ok hwrite
  cases hrun
  refine ⟨_, numbering, full, by rw [hcalls₄, hcalls₃, hcalls₂, hcalls₁], ?_, ?_⟩
  · rw [CallRecord.Left, htool₁, ← htree₂]
    exact hnumbering
  · exact FileTree.Holds.before hfull hkept (apart_input h (by simp [Sites.inputs]))

theorem appendAliases_eq_ok {header compat : Path}
    (hrun : (Publication.appendAliases directory header compat).run t = (.ok (), u)) :
    ∃ headerText compatText, t.Holds (target directory header) headerText ∧
      t.Holds (target directory compat) compatText ∧ ∀ l, u.get? l = if l = target directory header then
        some (.file (Header.appendAliases headerText compatText).encode) else t.get? l := by
  obtain ⟨headerText, t₁, hheader, hrun₁⟩ := run_bind_eq_ok hrun
  obtain ⟨compatText, t₂, hcompat, hrun₂⟩ := run_bind_eq_ok hrun₁
  obtain ⟨ht₁, hheader⟩ := Publication.readText_of_run hheader
  obtain ⟨ht₂, hcompat⟩ := Publication.readText_of_run hcompat
  rw [ht₁] at hcompat ht₂
  rw [ht₂] at hrun₂
  exact ⟨headerText, compatText, holds_of_readText hheader, holds_of_readText hcompat,
    Publication.get?_of_writeText hrun₂⟩

theorem Inside.target_ne {file' : Path} {n' : Name} (hf : Inside scratch file n) (hf' : Inside scratch file' n')
    (hne : n ≠ n') : target directory file ≠ target directory file' := by
  rw [hf.target_eq, hf'.target_eq]
  simpa using hne

theorem Inside.not_prefix_of_ne {file' : Path} {n' : Name} (hf : Inside scratch file n) (hf' : Inside scratch file' n')
    (hne : n ≠ n') : ¬ target directory file <+: target directory file' := by
  intro hpre
  refine hf.target_ne hf' hne (hpre.eq_of_length ?_)
  rw [hf.target_eq, hf'.target_eq, List.length_append, List.length_append]
  rfl

theorem completeHeader_eq_ok (h : sites.Separated directory) {missing : List Text}
    (hrun : (completeHeader directory sites (.inside sites.scratchDirectory)).run q = (.ok missing, q')) :
    ∃ header compat full, q.tree.Holds (target directory (ScratchFiles.inside sites.scratchDirectory).header) header ∧
      q.tree.Holds (target directory sites.compatHeader) compat ∧
      q.tree.Holds (target directory sites.fullHeader) full ∧ q'.calls = q.calls ∧
      q'.tree.get? (target directory (ScratchFiles.inside sites.scratchDirectory).finalHeader) =
        some (.file (Header.complete full (Header.appendAliases header compat)).text.encode) ∧
      q'.tree.get? (target directory (ScratchFiles.inside sites.scratchDirectory).lookupTable) =
        q.tree.get? (target directory (ScratchFiles.inside sites.scratchDirectory).lookupTable) ∧
      missing = (Header.complete full (Header.appendAliases header compat)).missing ∧
      (Notice.noGuard ∈ q'.notices ↔ Notice.noGuard ∈ q.notices ∨
        Header.lacksGuard full (Header.appendAliases header compat) = true) := by
  have hheader := ScratchFiles.inside_header sites.scratchDirectory
  have htable := ScratchFiles.inside_table sites.scratchDirectory
  have hfinal := ScratchFiles.inside_final sites.scratchDirectory
  rw [completeHeader_eq] at hrun
  obtain ⟨_, q₁, happend, hrun₁⟩ := run_bind_eq_ok hrun
  obtain ⟨full, q₂, hfull, hrun₂⟩ := run_bind_eq_ok hrun₁
  obtain ⟨merged, q₃, hmerged, hrun₃⟩ := run_bind_eq_ok hrun₂
  have hnotices₃ : q₃.notices = q.notices := by
    rw [notices_of_change hmerged, notices_of_change hfull, notices_of_change happend]
  obtain ⟨happend, hcalls₁⟩ := change_eq happend
  obtain ⟨header, compat, hholds, hcompat, hget₁⟩ := appendAliases_eq_ok happend
  obtain ⟨htree₂, hcalls₂, hfull⟩ := readText_run_eq_ok hfull
  obtain ⟨htree₃, hcalls₃, hmerged⟩ := readText_run_eq_ok hmerged
  -- the header that is read is the one that was written before
  obtain rfl : merged = Header.appendAliases header compat :=
    FileTree.Holds.eq_of_get? hmerged (by rw [htree₂, hget₁, if_pos rfl])
  obtain ⟨notices, hguard, hnotices⟩ := run_noteGuard full (Header.appendAliases header compat) q₃
  rw [run_bind_of_ok hguard] at hrun₃
  obtain ⟨_, q₄, hwrite, hrun₄⟩ := run_bind_eq_ok hrun₃
  obtain ⟨_, q₅, hnote, hrun₅⟩ := run_bind_eq_ok hrun₄
  have hnotices₅ : Notice.noGuard ∈ q₅.notices ↔ Notice.noGuard ∈ notices := by
    rw [notices_of_note hnote, notices_of_change hwrite]
    simp
  obtain ⟨hcalls₄, hget₄⟩ := writeText_run_eq_ok hwrite
  obtain ⟨htree₅, hcalls₅⟩ := note_eq_ok hnote
  cases hrun₅
  refine ⟨header, compat, full, hholds, hcompat, ?_, by rw [hcalls₅, hcalls₄, hcalls₃, hcalls₂, hcalls₁],
    by rw [htree₅, hget₄, if_pos rfl], ?_, rfl, ?_⟩
  · obtain ⟨x, hx, htext⟩ := hfull
    have hapart := apart_input h (p := sites.fullHeader) (by simp [Sites.inputs])
    rw [hget₁, if_neg (hheader.ne_target hapart)] at hx
    exact ⟨x, hx, htext⟩
  · rw [htree₅, hget₄, if_neg (htable.target_ne hfinal ScratchFiles.table_ne_final), htree₃, htree₂, hget₁,
      if_neg (htable.target_ne hheader ScratchFiles.header_ne_table.symm)]
  · rw [hnotices₅, hnotices, hnotices₃]

/-- What a run has made ready when it starts to publish: the completed header, and in the place of the lookup
    table what the last call left. -/
theorem prepare_eq_ok (h : sites.Separated directory) (htool : tool.Confined directory) {report : Report}
    (hcalls : q.calls = [])
    (hrun : (prepare directory tool sites (.inside sites.scratchDirectory)).run q = (.ok report, q')) :
    ∃ x : Texts, q'.tree.get? (target directory (ScratchFiles.inside sites.scratchDirectory).finalHeader) =
        some (.file x.completed.text.encode) ∧
      ∀ table, q'.tree.Holds (target directory (ScratchFiles.inside sites.scratchDirectory).lookupTable) table →
        Obtained directory tool sites q.tree q'.calls { x with lookupTable := table } := by
  have hheaderFile := ScratchFiles.inside_header sites.scratchDirectory
  have htableFile := ScratchFiles.inside_table sites.scratchDirectory
  obtain ⟨_, q₁, hseed, hrun₁⟩ := run_bind_eq_ok hrun
  obtain ⟨numberings, q₂, htrim, hrun₂⟩ := run_bind_eq_ok hrun₁
  obtain ⟨_, q₃, hnote, hrun₃⟩ := run_bind_eq_ok hrun₂
  obtain ⟨_, q₄, hheader, hrun₄⟩ := run_bind_eq_ok hrun₃
  obtain ⟨_, q₅, htable, hrun₅⟩ := run_bind_eq_ok hrun₄
  obtain ⟨missing, q₆, hcomplete, hrun₆⟩ := run_bind_eq_ok hrun₅
  cases hrun₆
  -- until the header is completed, nothing has changed outside the scratch directory
  have hkept₁ := (keeps_writeInside (ScratchFiles.inside_seed sites.scratchDirectory) _).of_run hseed
  have hkept₂ := (keeps_trimNumbering htool sites).of_run htrim
  have hkept₄ := (keeps_generateInside htool hheaderFile _ _ _).of_run hheader
  have hkept₅ := (keeps_generateInside htool htableFile _ _ _).of_run htable
  obtain ⟨hcalls₁, -⟩ := writeText_run_eq_ok hseed
  obtain ⟨call₁, numbering, fullNumbering, hcalls₂, hnumbering, hfullNumbering⟩ := trimNumbering_eq_ok h htool htrim
  obtain ⟨htree₃, hcalls₃⟩ := note_eq_ok hnote
  obtain ⟨htool₄, hcalls₄⟩ := generate_eq_ok hheader
  obtain ⟨htool₅, hcalls₅⟩ := generate_eq_ok htable
  obtain ⟨header, compat, full, hholds, hcompat, hfull, hcalls₆, hfinal, hsame, -⟩ :=
    completeHeader_eq_ok h hcomplete
  have hkept : Kept (Apart directory sites.scratchDirectory) [] q.tree q₅.tree := by
    have hkept₄ : Kept (Apart directory sites.scratchDirectory) [] q₂.tree q₄.tree := htree₃ ▸ hkept₄
    exact ((hkept₁.trans hkept₂).trans hkept₄).trans hkept₅
  refine ⟨⟨fullNumbering, full, compat, numbering, header, []⟩, hfinal, fun table htable => ?_⟩
  refine ⟨FileTree.Holds.before hfullNumbering hkept₁ (apart_input h (by simp [Sites.inputs])),
    FileTree.Holds.before hfull hkept (apart_input h (by simp [Sites.inputs])),
    FileTree.Holds.before hcompat hkept (apart_input h (by simp [Sites.inputs])), call₁, _, _,
    by rw [hcalls₆, hcalls₅, hcalls₄, hcalls₃, hcalls₂, hcalls₁, hcalls]; rfl, hnumbering, ?_, ?_⟩
  · -- the last call has not touched the header
    obtain ⟨y, hy, htext⟩ := hholds
    have hsame₅ := htool ((Generator.ofSites sites).call .lookupTable
      [(ScratchFiles.inside sites.scratchDirectory).header] (ScratchFiles.inside sites.scratchDirectory).lookupTable)
      q₄.tree _ (htableFile.not_prefix_of_ne hheaderFile ScratchFiles.header_ne_table.symm)
    rw [htool₅] at hsame₅
    rw [CallRecord.Left, htool₄]
    exact ⟨y, hsame₅ ▸ hy, htext⟩
  · obtain ⟨y, hy, htext⟩ := htable
    rw [CallRecord.Left, htool₅]
    exact ⟨y, hsame ▸ hy, htext⟩

end Regeneration

end ObjectTables
