import ObjectTables.Proofs.FileTree.Creation

/-! Where the sites of a run lie. A file in a directory is passed to from that directory (`way_join`), and the
    published files are below the root (`way_output`). Sites that are separated keep clear of the scratch
    directory (`Separated.clear`). -/

namespace ObjectTables

open FileTree

variable {directory l : Location} {p : Path} {n : Name} {t : FileTree}

/-! ### Files in directories -/

/-- A step that is the name of an entry. -/
structure IsName (n : Name) : Prop where
  step : Path.IsStep n
  name : n ≠ Path.here ∧ n ≠ Path.above

instance (n : Name) : Decidable (IsName n) :=
  decidable_of_iff (Path.IsStep n ∧ n ≠ Path.here ∧ n ≠ Path.above) ⟨fun h => ⟨h.1, h.2⟩, fun h => ⟨h.step, h.name⟩⟩

theorem endsIn_join (p : Path) (h : IsName n) : EndsIn (Path.join p n) p.steps n :=
  ⟨Path.steps_join_step p h.step, h.name⟩

theorem start_join_name (directory : Location) (p : Path) (h : IsName n) :
    start directory (Path.join p n) = start directory p := by
  rw [start, start, Path.isAbsolute_join_step p h.step]

theorem target_join (directory : Location) (p : Path) (h : IsName n) :
    target directory (Path.join p n) = target directory p ++ [n] := by
  rw [(endsIn_join p h).target_eq, start_join_name directory p h, target]

theorem way_join (directory : Location) (p : Path) (h : IsName n) :
    way directory (Path.join p n) = way directory p ++ [target directory p] := by
  rw [way_eq (endsIn_join p h).steps, start_join_name directory p h, way, target]

theorem get?_start_join (q : Path) (h : t.get? (start directory p) = some .directory) :
    t.get? (start directory (Path.join p q)) = some .directory := by
  rw [start, Path.isAbsolute_join]
  rw [start] at h
  cases hp : Path.isAbsolute p with
  | true => rfl
  | false =>
    rw [hp] at h
    cases Path.isAbsolute q with
    | true => rfl
    | false => exact h

theorem get?_start_of_reachesDirectory (h : t.reachesDirectory directory p = true) :
    t.get? (start directory p) = some .directory := by
  have h := get?_of_reachesDirectory h
  by_cases hsteps : p.steps = []
  · rw [target, hsteps] at h
    exact h _ List.mem_cons_self
  · obtain ⟨s, steps, hs⟩ := List.exists_cons_of_ne_nil hsteps
    rw [way, hs] at h
    exact h _ (List.mem_cons_of_mem _ List.mem_cons_self)

/-! ### Files below directories -/

theorem leads_names {ns : List Name} (h : ∀ n ∈ ns, IsName n) (l : Location) : leads l ns = l ++ ns := by
  induction ns generalizing l with
  | nil => exact (List.append_nil l).symm
  | cons n ns ih =>
    obtain ⟨hn, hns⟩ := List.forall_mem_cons.mp h
    rw [leads_cons, toward_name hn.name, ih hns, List.append_assoc, List.singleton_append]

theorem mem_passed_names {ns : List Name} (h : ∀ n ∈ ns, IsName n) {m : Location} (hl : l ∈ passed m ns) :
    m <+: l ∧ l <+: m ++ ns ∧ l ≠ m ++ ns := by
  induction ns generalizing m with
  | nil => exact absurd hl List.not_mem_nil
  | cons n ns ih =>
    obtain ⟨hn, hns⟩ := List.forall_mem_cons.mp h
    rcases List.mem_cons.mp hl with rfl | hl
    · exact ⟨List.prefix_rfl, List.prefix_append _ _, by simp⟩
    · rw [toward_name hn.name] at hl
      have hbetween := ih hns hl
      rw [List.append_assoc, List.singleton_append] at hbetween
      exact ⟨(List.prefix_append _ _).trans hbetween.1, hbetween.2⟩

theorem target_below (directory : Location) (base : Path) {names : List String}
    (h : ∀ n ∈ names, IsName (Path.ofString n)) :
    target directory (base.below names) = target directory base ++ names.map Path.ofString := by
  have hstart : start directory (base.below names) = start directory base := by
    rw [start, start, Path.isAbsolute_below fun n hn => (h n hn).step]
  rw [target, hstart, Path.steps_below fun n hn => (h n hn).step, leads_append, leads_names (by simpa using h), target]

/-- A path below another, by one name or more. -/
def Below (base p : Path) : Prop :=
  ∃ names : List String, p = base.below names ∧ names ≠ [] ∧ ∀ n ∈ names, IsName (Path.ofString n)

namespace Below

variable {base : Path}

theorem start_eq (h : Below base p) (directory : Location) : start directory p = start directory base := by
  obtain ⟨names, rfl, -, hnames⟩ := h
  rw [start, start, Path.isAbsolute_below fun n hn => (hnames n hn).step]

theorem steps_eq (h : Below base p) : ∃ ns, ns ≠ [] ∧ (∀ n ∈ ns, IsName n) ∧ p.steps = base.steps ++ ns := by
  obtain ⟨names, rfl, hne, hnames⟩ := h
  exact ⟨names.map Path.ofString, by simpa using hne, by simpa using hnames,
    Path.steps_below fun n hn => (hnames n hn).step⟩

theorem endsIn (h : Below base p) : ∃ up n, EndsIn p up n := by
  obtain ⟨ns, hne, hnames, hsteps⟩ := h.steps_eq
  refine ⟨base.steps ++ ns.dropLast, ns.getLast hne, ?_, (hnames _ (List.getLast_mem hne)).name⟩
  rw [hsteps, List.append_assoc, List.dropLast_concat_getLast]

theorem mem_way (h : Below base p) (hl : l ∈ way directory p) : l ∈ way directory base ∨
    target directory base <+: l ∧ l <+: target directory p ∧ l ≠ target directory p := by
  obtain ⟨ns, -, hnames, hsteps⟩ := h.steps_eq
  rw [way, h.start_eq, hsteps, passed_append] at hl
  refine (List.mem_append.mp hl).imp_right fun hl => ?_
  rw [target, target, h.start_eq, hsteps, leads_append, leads_names hnames (leads _ base.steps)]
  exact mem_passed_names hnames hl

theorem start_mem_way (h : Below base p) (directory : Location) : start directory base ∈ way directory p := by
  obtain ⟨ns, hne, -, hsteps⟩ := h.steps_eq
  obtain ⟨s, steps, hs⟩ := List.exists_cons_of_ne_nil (l := p.steps) (by rw [hsteps]; simp [hne])
  rw [way, hs, h.start_eq]
  exact List.mem_cons_self

theorem not_slashed (h : Below base p) : Path.isSlashed p = false := by
  obtain ⟨names, rfl, hne, hnames⟩ := h
  rcases List.eq_nil_or_concat names with rfl | ⟨up, n, rfl⟩
  · exact absurd rfl hne
  · rw [List.concat_eq_append] at hnames ⊢
    rw [Path.below, List.foldl_append]
    exact Path.isSlashed_join_step _ (hnames n (List.mem_append_right _ List.mem_cons_self)).step

end Below

namespace Sites

/-! ### Separated sites -/

/-- The files that a run or its generator reads. -/
def inputs (s : Sites) : List Path :=
  [s.whitelist, s.fullNumbering, s.fullHeader, s.compatHeader, s.objectsScript, s.tableScript, s.dataSource]

/-- The files that a run publishes. -/
def outputs (s : Sites) : List Path := [s.publishedTable, s.publishedHeader, s.publishedSource]

/-- The sites are different locations, none of them inside another, the scratch path ends in a name, and no
    other path leads through the scratch directory. -/
structure Separated (directory : Location) (s : Sites) : Prop where
  name : ∃ up n, EndsIn s.scratchDirectory up n
  apart : ((s.scratchDirectory :: (s.inputs ++ s.outputs)).map (target directory)).Pairwise
    fun a b => ¬ a <+: b ∧ ¬ b <+: a
  around : ∀ p ∈ s.root :: (s.inputs ++ s.outputs), ∀ l ∈ way directory p,
    ¬ target directory s.scratchDirectory <+: l

instance (directory : Location) (s : Sites) : Decidable (Separated directory s) :=
  decidable_of_iff ((∃ up n, EndsIn s.scratchDirectory up n) ∧
      ((s.scratchDirectory :: (s.inputs ++ s.outputs)).map (target directory)).Pairwise
        (fun a b => ¬ a <+: b ∧ ¬ b <+: a) ∧
      ∀ p ∈ s.root :: (s.inputs ++ s.outputs), ∀ l ∈ way directory p, ¬ target directory s.scratchDirectory <+: l)
    ⟨fun ⟨h₁, h₂, h₃⟩ => ⟨h₁, h₂, h₃⟩, fun h => ⟨h.name, h.apart, h.around⟩⟩

variable {s : Sites}

theorem below_output (hp : p ∈ s.outputs) : Below s.root p := by
  simp only [outputs, List.mem_cons, List.not_mem_nil, or_false] at hp
  rcases hp with rfl | rfl | rfl
  · exact ⟨_, rfl, by decide, by decide⟩
  · exact ⟨_, rfl, by decide, by decide⟩
  · exact ⟨_, rfl, by decide, by decide⟩

theorem below_whitelist (s : Sites) : Below s.root s.whitelist := ⟨["objects.txt"], rfl, by decide, by decide⟩

theorem start_scratch (directory : Location) (s : Sites) :
    start directory s.scratchDirectory = [] ∨ start directory s.scratchDirectory = start directory s.root := by
  rw [start, start, scratchDirectory, Path.isAbsolute_join]
  cases Path.isAbsolute s.root with
  | true => exact Or.inl rfl
  | false =>
    cases Path.isAbsolute s.scratch with
    | true => exact Or.inl rfl
    | false => exact Or.inr rfl

/-- No path starts inside the scratch directory. -/
theorem Separated.start_apart (h : Separated directory s) :
    ¬ target directory s.scratchDirectory <+: start directory s.scratchDirectory := by
  obtain ⟨up, n, hends⟩ := h.name
  intro hpre
  rcases start_scratch directory s with hroot | hroot
  · rw [hroot] at hpre
    exact hends.target_ne_nil directory (List.prefix_nil.mp hpre)
  · rw [hroot] at hpre
    exact h.around s.whitelist (by simp [inputs]) _ ((below_whitelist s).start_mem_way directory) hpre

theorem Separated.clear (h : Separated directory s) (hp : p ∈ s.inputs ++ s.outputs) :
    ∀ l ∈ target directory p :: way directory p, ¬ target directory s.scratchDirectory <+: l := by
  refine List.forall_mem_cons.mpr ⟨?_, h.around p (List.mem_cons_of_mem _ hp)⟩
  exact (List.rel_of_pairwise_cons h.apart (List.mem_map_of_mem hp)).1

/-- A published file's location lies below no other one's. -/
theorem Separated.eq_of_isPrefix {p' : Path} (h : Separated directory s) (hp : p ∈ s.outputs) (hp' : p' ∈ s.outputs)
    (hpre : target directory p <+: target directory p') : target directory p = target directory p' := by
  have hapart := h.apart
  rw [List.map_cons, List.map_append] at hapart
  have houtputs := (List.pairwise_append.mp (List.pairwise_cons.mp hapart).2).2.1
  refine List.Pairwise.forall_of_forall_of_flip (R := fun a b => a <+: b → a = b) (fun _ _ _ => rfl)
    (houtputs.imp fun hab h => absurd h hab.1) (houtputs.imp fun hab h => absurd h hab.2)
    (List.mem_map_of_mem hp) (List.mem_map_of_mem hp') hpre

theorem Separated.outputs_ne (h : Separated directory s) :
    target directory s.publishedTable ≠ target directory s.publishedHeader ∧
    target directory s.publishedTable ≠ target directory s.publishedSource ∧
    target directory s.publishedHeader ≠ target directory s.publishedSource := by
  have hapart := h.apart
  rw [List.map_cons, List.map_append] at hapart
  have houtputs := (List.pairwise_append.mp (List.pairwise_cons.mp hapart).2).2.1
  obtain ⟨htable, hrest⟩ := List.pairwise_cons.mp houtputs
  have ne_of_not_isPrefix {a b : Location} (hab : ¬ a <+: b) : a ≠ b := fun he => hab (he ▸ List.prefix_rfl)
  exact ⟨ne_of_not_isPrefix (htable _ (by simp)).1, ne_of_not_isPrefix (htable _ (by simp)).1,
    ne_of_not_isPrefix (List.rel_of_pairwise_cons hrest (by simp)).1⟩

/-- No input is a published file. -/
theorem Separated.input_ne {p' : Path} (h : Separated directory s) (hp' : p' ∈ s.inputs) (hp : p ∈ s.outputs) :
    target directory p' ≠ target directory p := by
  have hapart := h.apart
  rw [List.map_cons, List.map_append] at hapart
  have hcross := (List.pairwise_append.mp (List.pairwise_cons.mp hapart).2).2.2
  have hne := hcross _ (List.mem_map_of_mem hp') _ (List.mem_map_of_mem hp)
  exact fun he => hne.1 (he ▸ List.prefix_rfl)

end Sites

end ObjectTables
