import ObjectTables.Proofs.Regeneration.Dependence

/-! Trees that differ only in what earlier runs may have left: in the scratch directory, in the places of the published
    files, and in whether the directories on the way to these are there. The claim of the scratch directory removes
    the first difference (`together_claim`), the others are overwritten, and so whole runs from such trees go
    together (`together_run`). -/

namespace ObjectTables.Regeneration

open FileTree

variable {directory l : Location} {tool : Tool} {sites : Sites} {t u : FileTree} {p : Path}

/-- The inputs have the same to read in two trees, over the same ways. -/
def SameInputs (directory : Location) (sites : Sites) (t u : FileTree) : Prop :=
  ∀ p ∈ sites.inputs, Agree (target directory p :: way directory p) t u

instance (directory : Location) (sites : Sites) (t u : FileTree) : Decidable (SameInputs directory sites t u) :=
  inferInstanceAs (Decidable (∀ p ∈ sites.inputs, Agree (target directory p :: way directory p) t u))

/-- Two trees that differ in leftovers only. The paths lead to the same locations in both: the inputs over the same ways,
    the others over ways on which directories may be there or missing. The scratch directory is absent in a tree, or
    reached with anything in it, and no directory is in a published file's place. -/
structure Twins (directory : Location) (sites : Sites) (t u : FileTree) : Prop where
  inputs : SameInputs directory sites t u
  first : Scratch.Clearable directory sites.scratchDirectory t
  second : Scratch.Clearable directory sites.scratchDirectory u
  ways : ∀ p ∈ sites.scratchDirectory :: sites.outputs, Comparable (way directory p) t u
  goals : ∀ p ∈ sites.outputs, Writable directory p t u
  others : ∀ l, ¬ target directory sites.scratchDirectory <+: l → (∀ p ∈ sites.outputs, l ≠ target directory p) →
    l ∉ sites.ways directory → t.get? l = u.get? l

theorem target_flag_ne (hp : p ∈ sites.outputs) : target directory flag ≠ target directory p := by
  have last_ne {base : Path} {n : Name} (hn : IsName n) (hne : flag ≠ n) :
      target directory flag ≠ target directory (Path.join base n) := by
    rw [target_flag, target_join directory base hn]
    exact fun h => hne (List.append_inj_right' h rfl |> List.singleton_inj.mp)
  simp only [Sites.outputs, List.mem_cons, List.not_mem_nil, or_false] at hp
  rcases hp with rfl | rfl | rfl
  · exact last_ne (n := Path.ofString "obj_dat.h") (by decide) (by decide)
  · exact last_ne (n := Path.ofString "obj_mac.h") (by decide) (by decide)
  · exact last_ne (n := Path.ofString "obj_dat.c") (by decide) (by decide)

theorem SameFile.of_free (h : t.Free l ∧ u.Free l) : SameFile l t u := by
  have no_file {v : FileTree} (hv : v.Free l) (x : Bytes) : v.get? l ≠ some (.file x) := by
    rcases hv with hv | hv
    · rw [hv]
      exact nofun
    · rw [hv]
      exact fun he => nomatch Option.some.inj he
  exact Or.inr fun x => ⟨no_file h.1 x, no_file h.2 x⟩

namespace Twins

theorem sameFile_flag (h : Twins directory sites t u)
    (hoff : ¬ target directory sites.scratchDirectory <+: target directory flag) :
    SameFile (target directory flag) t u := by
  by_cases hway : target directory flag ∈ sites.ways directory
  · obtain ⟨p, hp, hmem⟩ := List.mem_flatMap.mp hway
    rcases h.ways p hp with hfree | hagree
    · exact SameFile.of_free (hfree _ hmem)
    · exact Or.inl (hagree _ hmem)
  · exact Or.inl (h.others _ hoff (fun p hp => target_flag_ne hp) hway)

theorem get?_start (h : Twins directory sites t u) :
    t.get? (start directory sites.scratchDirectory) = u.get? (start directory sites.scratchDirectory) := by
  rcases Sites.start_scratch directory sites with hroot | hroot
  · rw [hroot]
    rfl
  · rw [hroot]
    exact h.inputs sites.whitelist (by simp [Sites.inputs]) _
      (List.mem_cons_of_mem _ (Sites.start_root_mem directory sites))

theorem alike (h : Twins directory sites t u) (hsites : sites.Separated directory) :
    Scratch.Alike directory sites.scratchDirectory t u where
  apart := hsites.start_apart
  start := h.get?_start
  first := h.first
  second := h.second
  ways := h.ways _ List.mem_cons_self

end Twins

/-- Once their scratch directories are claimed, a run cannot tell twins apart. -/
theorem together_claim (h : sites.Separated directory) :
    Together (Abreast (sites.outputWays directory)) (Twins directory sites) (Matched directory sites [])
      (Scratch.claim directory sites.scratchDirectory) := by
  obtain ⟨up, n, hends⟩ := h.name
  intro t u htwins
  obtain ⟨hresult, hstep, hscratch, hway⟩ :=
    Scratch.claim_abreast hends (fun _ hl => h.outputWays_clear hl) (htwins.alike h)
  refine ⟨hresult, hstep, fun hok => ?_⟩
  refine ⟨hscratch hok, hway hok, fun p hp => hstep.agree (htwins.inputs p hp), ?_, fun p hp => ?_, fun p hp => ?_,
    fun l hl => absurd hl List.not_mem_nil⟩
  · by_cases hoff : target directory sites.scratchDirectory <+: target directory flag
    · exact Or.inl (hscratch hok _ hoff)
    · exact stable_sameFile _ _ _ _ _ _ hstep (htwins.sameFile_flag hoff)
  · exact stable_comparable (fun l hl => Sites.mem_outputWays.mpr ⟨p, hp, hl⟩) _ _ _ _ hstep
      (htwins.ways p (List.mem_cons_of_mem _ hp))
  · exact stable_writable _ _ _ _ _ _ _ hstep (htwins.goals p hp)

/-- The locations of the published files, the last one first. -/
def published (directory : Location) (sites : Sites) : List Location :=
  [target directory sites.publishedSource, target directory sites.publishedHeader,
    target directory sites.publishedTable]

/-- Whole runs from twins go together, and then the trees agree on what is published. -/
theorem together_run (h : sites.Separated directory) (htool : tool.Functional directory) :
    Together (Run.InStep directory (sites.outputWays directory)) (Run.OnTree (Twins directory sites))
      (Run.OnTree (Matched directory sites (published directory sites))) (run directory tool sites) := by
  obtain ⟨up, n, hends⟩ := h.name
  rw [run]
  refine (Run.together_change (together_claim h)).bind_of_run Run.InStep.trans fun claim q q' hclaim => ?_
  obtain ⟨hrun, -⟩ := Run.change_eq hclaim
  obtain ⟨rfl, -⟩ := Scratch.reachesDirectory_of_claim hends.ne_nil hrun
  refine Alongside.bind (Run.together_under rfl (stable_matched directory sites []) (together_release h [])
    (alongside_work h htool)) fun report => ?_
  refine Alongside.bind (Run.together_change (together_close h _)) fun _ => ?_
  exact (alongside_copy h _).bind fun _ => alongside_pure _ _

end ObjectTables.Regeneration
