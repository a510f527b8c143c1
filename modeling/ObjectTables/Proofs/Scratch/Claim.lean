import ObjectTables.Proofs.Scratch

/-! Claims by plain paths. A path that never leads up passes only what lies above the location that it leads to
    (`Plain.above`), so a claim tells by its outcome alone what it has done: if it succeeds, its directory is there and
    empty (`claim_of_ok`), and if it fails, it has taken nothing away (`claim_of_error`). A claim that is sound can be
    released (`Sound.release`), and stays sound while its way does (`Sound.kept`). -/

namespace ObjectTables

namespace FileTree

variable {t t' : FileTree} {directory l m q : Location} {p : Path} {steps : List Name} {s : Name}

theorem isPrefix_toward (h : s ≠ Path.above) (l : Location) : l <+: toward l s := by
  rw [toward, if_neg h]
  split
  · exact List.prefix_rfl
  · exact List.prefix_append l [s]

theorem isPrefix_leads (h : Path.above ∉ steps) (l : Location) : l <+: leads l steps := by
  induction steps generalizing l with
  | nil => exact List.prefix_rfl
  | cons s steps ih =>
    have hs : s ≠ Path.above := (List.ne_of_not_mem_cons h).symm
    exact (isPrefix_toward hs l).trans (ih (List.not_mem_of_not_mem_cons h) (toward l s))

/-- Steps that never lead up pass only what lies above the location that they lead to. -/
theorem isPrefix_of_mem_passed (h : Path.above ∉ steps) (hm : m ∈ passed l steps) : m <+: leads l steps := by
  induction steps generalizing l with
  | nil => exact absurd hm List.not_mem_nil
  | cons s steps ih =>
    rcases List.mem_cons.mp hm with rfl | hm
    · exact isPrefix_leads h m
    · exact ih (List.not_mem_of_not_mem_cons h) hm

theorem start_mem_way (h : p.steps ≠ []) : start directory p ∈ way directory p := by
  obtain ⟨s, steps, hsteps⟩ := List.exists_cons_of_ne_nil h
  rw [way, hsteps]
  exact List.mem_cons_self

/-- A path that ends in a name and never leads up. -/
structure Plain (p : Path) : Prop where
  ends : ∃ up n, EndsIn p up n
  down : Path.above ∉ p.steps

instance (p : Path) : Decidable (Plain p) :=
  decidable_of_iff ((∃ up n, EndsIn p up n) ∧ Path.above ∉ p.steps) ⟨fun ⟨h, h'⟩ => ⟨h, h'⟩, fun h => ⟨h.ends, h.down⟩⟩

namespace Plain

theorem steps_ne_nil (h : Plain p) : p.steps ≠ [] := by
  obtain ⟨up, n, hends⟩ := h.ends
  rw [hends.steps]
  exact List.concat_ne_nil n up

theorem isPrefix (h : Plain p) (hq : q ∈ way directory p) : q <+: target directory p :=
  isPrefix_of_mem_passed h.down hq

/-- What a plain path passes lies strictly above the location that it leads to. -/
theorem above (h : Plain p) (hq : q ∈ way directory p) : ¬ target directory p <+: q := by
  obtain ⟨up, n, hends⟩ := h.ends
  have hup : Path.above ∉ up := fun hmem => h.down (hends.steps ▸ List.mem_append_left _ hmem)
  have hpre : q <+: leads (start directory p) up := by
    rw [way_eq hends.steps] at hq
    rcases List.mem_append.mp hq with hq | hq
    · exact isPrefix_of_mem_passed hup hq
    · exact List.mem_singleton.mp hq ▸ List.prefix_rfl
  intro hbelow
  rw [hends.target_eq] at hbelow
  have hlong := (hbelow.trans hpre).length_le
  rw [List.length_append, List.length_singleton] at hlong
  omega

theorem outside (h : Plain p) : Outside directory p := fun _ hq hbelow => absurd hbelow (h.above hq)

end Plain

end FileTree

namespace Scratch

open FileTree

variable {t t' : FileTree} {directory : Location} {p : Path} {c : ScratchClaim} {f : Failure}

/-- A removal takes a directory away, finds nothing, or is stopped by a file that it leaves alone. -/
theorem run_remove_cases (h : Plain p) (t : FileTree) :
    (t.reachesDirectory directory p = true ∧
      ∃ t', (remove directory p).run t = (.ok (), t') ∧ Erased (target directory p) t t') ∨
    (t.reaches directory p = false ∧ (remove directory p).run t = (.ok (), t)) ∨
    ∃ f, (remove directory p).run t = (.error f, t) := by
  obtain ⟨up, n, hends⟩ := h.ends
  by_cases hdir : t.reachesDirectory directory p = true
  · exact Or.inl ⟨hdir, run_remove_of_reaches hends h.outside hdir⟩
  · rw [Scratch.run_remove]
    by_cases hreaches : t.reaches directory p = true
    · have hlocate := locate_of_reaches hreaches
      have hemptied : ∃ e, emptied directory p t = .error e := by
        rw [emptied, hlocate, ok_bind]
        cases henter : t.enter (target directory p) with
        | error e => exact ⟨e, rfl⟩
        | ok _ => exact absurd (reachesDirectory_iff.mpr ⟨hlocate, enter_eq_ok.mp henter⟩) hdir
      obtain ⟨e, hemptied⟩ := hemptied
      rw [if_pos hreaches, Change.run_adapt, removeAll_eq, run_bind_of_error (Change.run_make_of_error hemptied)]
      exact Or.inr (Or.inr ⟨_, rfl⟩)
    · rw [if_neg hreaches]
      exact Or.inr (Or.inl ⟨by simpa using hreaches, rfl⟩)

/-- A claim that is not released, by a plain path whose way is there, and whose directory is if anything is. -/
structure Sound (directory : Location) (t : FileTree) (c : ScratchClaim) : Prop where
  due : c.released = false
  plain : Plain c.path
  fits : Fits c.path
  way : ∀ q ∈ way directory c.path, t.get? q = some .directory
  free : t.Free (target directory c.path)

/-- A sound claim can be closed, and discarding it comes to the same: nothing is left of its directory. -/
theorem Sound.release (h : Sound directory t c) : ∃ t', (c.close directory).run t = (.ok (), t') ∧
    (c.discard directory t).2 = t' ∧ Erased (target directory c.path) t t' := by
  obtain ⟨t', hrun, herased⟩ : ∃ t', (remove directory c.path).run t = (.ok (), t') ∧
      Erased (target directory c.path) t t' := by
    obtain ⟨up, n, hends⟩ := h.plain.ends
    rcases h.free with hnone | hdir
    · exact ⟨t, run_remove_of_none hends hnone⟩
    · exact run_remove_of_reaches hends h.plain.outside (reachesDirectory_of h.fits h.way hdir)
  refine ⟨t', (run_close directory c t).trans hrun, ?_, herased⟩
  rw [discard_of_due h.due]
  exact congrArg Prod.snd hrun

theorem Sound.kept {P : Location → Prop} {ls : List Location} (h : Sound directory t c) (hkept : Kept P ls t t')
    (hway : ∀ q ∈ FileTree.way directory c.path, P q) (hfree : t'.Free (target directory c.path)) :
    Sound directory t' c where
  due := h.due
  plain := h.plain
  fits := h.fits
  way q hq := hkept.get? (hway q hq) (h.way q hq)
  free := hfree

theorem Sound.reachesDirectory (h : Sound directory t c) (hdir : t.get? (target directory c.path) = some .directory) :
    t.reachesDirectory directory c.path = true := reachesDirectory_of h.fits h.way hdir

theorem not_reaches_of_none (h : Plain p) (hnone : t.get? (target directory p) = none) :
    t.reaches directory p = false := by
  rw [Bool.eq_false_iff]
  intro hreaches
  have hsome := (locate_eq_ok.mp (locate_of_reaches hreaches)).2.2.2.1 h.steps_ne_nil
  rw [hnone] at hsome
  cases hsome

/-- A successful claim leaves an empty directory where its path leads, whatever was there before. -/
theorem claim_of_ok (h : Plain p) (hclaim : (claim directory p).run t = (.ok c, t')) :
    c = ⟨p, false⟩ ∧ Sound directory t' ⟨p, false⟩ ∧ t'.get? (target directory p) = some .directory ∧
      ∀ l, target directory p <+: l → l ≠ target directory p → t'.get? l = none := by
  obtain ⟨up, n, hends⟩ := h.ends
  obtain ⟨rfl, hreaches⟩ := reachesDirectory_of_claim hends.ne_nil hclaim
  obtain ⟨hlocate, hdir⟩ := reachesDirectory_iff.mp hreaches
  obtain ⟨hfits, -, hway, -⟩ := locate_eq_ok.mp hlocate
  refine ⟨rfl, ⟨rfl, h, hfits, hway, Or.inr hdir⟩, hdir, fun l hbelow hne => ?_⟩
  obtain ⟨_, t₁, hremove, hclaim⟩ := run_bind_eq_ok hclaim
  obtain ⟨_, t₂, hcreate, hclaim⟩ := run_bind_eq_ok hclaim
  cases hclaim
  have hkept : Kept Everywhere (target directory p :: way directory p) t₁ t' :=
    Keeps.of_run (Change.keeps_adapt (keeps_createAll directory hends.tidy) _) hcreate
  -- the removal has left nothing: a directory that it had not found would have been found
  have hnone : t₁.get? (target directory p) = none := by
    rcases run_remove_cases h t with ⟨-, t₂, hrun, herased⟩ | ⟨hmissed, hrun⟩ | ⟨f, hrun⟩
    · rw [hrun] at hremove
      cases hremove
      rw [herased, if_pos List.prefix_rfl]
    · rw [hrun] at hremove
      cases hremove
      rcases hkept _ trivial with heq | ⟨-, hnone, -⟩
      · rw [hdir] at heq
        have hup : ∀ q ∈ way directory p, t.get? q = some .directory := fun q hq =>
          get?_of_isPrefix (by rw [← heq]; rfl) (h.isPrefix hq) fun heq => h.above hq (heq ▸ List.prefix_rfl)
        rw [reaches_of_reachesDirectory (reachesDirectory_of hfits hup heq.symm)] at hmissed
        cases hmissed
      · exact hnone
    · rw [hrun] at hremove
      cases hremove
  rcases hkept l trivial with heq | ⟨hmem, -, -⟩
  · rw [heq]
    exact get?_eq_none_of_isPrefix (by rw [hnone]; simp) hbelow (Ne.symm hne)
  · rcases List.mem_cons.mp hmem with heq | hmem
    · exact absurd heq hne
    · exact absurd hbelow (h.above hmem)

/-- A claim that fails has added directories on its way, and taken nothing away. -/
theorem claim_of_error (h : Plain p) (hclaim : (claim directory p).run t = (.error f, t')) :
    Kept Everywhere (target directory p :: way directory p) t t' := by
  obtain ⟨up, n, hends⟩ := h.ends
  rcases run_remove_cases h t with ⟨hdir, -⟩ | ⟨-, hrun⟩ | ⟨f, hrun⟩
  · -- where there was a directory the claim succeeds
    obtain ⟨hlocate, htarget⟩ := reachesDirectory_iff.mp hdir
    obtain ⟨hfits, -, hway, -⟩ := locate_eq_ok.mp hlocate
    have hstart : start directory p ∈ way directory p := start_mem_way h.steps_ne_nil
    obtain ⟨t₁, hok, -⟩ := run_claim (t := t) ⟨h.ends, h.outside, hfits, hway _ hstart, h.above hstart,
      fun q hq => Or.inr (hway q hq), Or.inr hdir⟩
    rw [hok] at hclaim
    cases hclaim
  · rw [claim, run_bind_of_ok hrun] at hclaim
    have hcreate : Keeps (Kept Everywhere (target directory p :: way directory p)) (do
        (createAll directory p).adapt (Failure.createDirectory p)
        return (⟨p, false⟩ : ScratchClaim)) :=
      Keeps.bind (Change.keeps_adapt (keeps_createAll directory hends.tidy) _) (fun _ _ _ h h' => h.trans h')
        fun _ => Keeps.pure (Kept.refl _ _) _
    exact hcreate.of_run hclaim
  · rw [claim, run_bind_of_error hrun] at hclaim
    cases hclaim
    exact Kept.refl _ _ t

end Scratch

end ObjectTables
