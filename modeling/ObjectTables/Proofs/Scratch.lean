import ObjectTables.Scratch
import ObjectTables.Proofs.FileTree.Removal

/-! The life of a scratch directory. Claiming it makes it an empty directory (`run_claim`), and removing it leaves
    nothing where it was (`run_remove_of_reaches`). Whether they succeed or not, neither changes anything elsewhere, but
    for the directories on its way that a claim may add (`keeps_claim`). A claim is released by one removal
    (`run_close`, `discard_of_due`), and then no more (`discard_of_released`). -/

namespace ObjectTables.Scratch

open FileTree

variable {t t' : FileTree} {directory : Location} {p : Path} {up : List Name} {n : Name}

theorem run_remove (directory : Location) (p : Path) (t : FileTree) : (remove directory p).run t =
    if t.reaches directory p then ((removeAll directory p).adapt (Failure.removeDirectory p)).run t
    else (.ok (), t) := by
  show (if t.reaches directory p = true then (removeAll directory p).adapt (Failure.removeDirectory p)
    else (pure () : Change Failure Unit)).run t = _
  split <;> rfl

/-- Removing changes nothing elsewhere, whether it succeeds or not. -/
theorem keeps_remove (directory : Location) (hends : EndsIn p up n) :
    Keeps (Kept (¬ target directory p <+: ·) []) (remove directory p) := by
  intro t
  rw [run_remove]
  split
  · exact Change.keeps_adapt (keeps_removeAll directory hends) _ t
  · exact Kept.refl _ _ t

theorem reaches_of_reachesDirectory (h : t.reachesDirectory directory p = true) : t.reaches directory p = true := by
  rw [reaches, (reachesDirectory_iff.mp h).1]

/-- Nothing is left where a directory was that is reached from outside. -/
theorem run_remove_of_reaches (hends : EndsIn p up n) (houtside : Outside directory p)
    (h : t.reachesDirectory directory p = true) :
    ∃ t', (remove directory p).run t = (.ok (), t') ∧ Erased (target directory p) t t' := by
  obtain ⟨t', hrun, herased⟩ := run_removeAll hends houtside h
  refine ⟨t', ?_, herased⟩
  rw [run_remove, if_pos (reaches_of_reachesDirectory h), Change.run_adapt, hrun]
  rfl

theorem run_remove_of_none (hends : EndsIn p up n) (h : t.get? (target directory p) = none) :
    (remove directory p).run t = (.ok (), t) ∧ Erased (target directory p) t t := by
  constructor
  · rw [run_remove, if_neg]
    intro hr
    have hsome := (locate_eq_ok.mp (locate_of_reaches hr)).2.2.2.1 (by rw [hends.steps]; simp)
    rw [h] at hsome
    cases hsome
  · intro m
    split
    · next hm =>
      by_cases heq : target directory p = m
      · rw [← heq, h]
      · exact get?_eq_none_of_isPrefix (by rw [h]; simp) hm heq
    · rfl

/-- A scratch directory can be claimed if it is absent or reached, and its way is free. -/
structure Claimable (directory : Location) (p : Path) (t : FileTree) : Prop where
  ends : ∃ up n, EndsIn p up n
  outside : Outside directory p
  fits : Fits p
  start : t.get? (start directory p) = some .directory
  apart : ¬ target directory p <+: FileTree.start directory p
  free : ∀ q ∈ way directory p, t.Free q
  reached : t.get? (target directory p) = none ∨ t.reachesDirectory directory p = true

/-- A claim empties the scratch directory and adds directories on its way, and nothing else. -/
theorem run_claim (h : Claimable directory p t) : ∃ t', (claim directory p).run t = (.ok ⟨p, false⟩, t') ∧
    ∀ l, t'.get? l = if l = target directory p then some .directory else if target directory p <+: l then none
    else if l ∈ way directory p then some .directory else t.get? l := by
  obtain ⟨up, n, hends⟩ := h.ends
  obtain ⟨t₁, hremove, herased⟩ :
      ∃ t₁, (remove directory p).run t = (.ok (), t₁) ∧ Erased (target directory p) t t₁ := by
    rcases h.reached with hnone | hreached
    · exact ⟨t, run_remove_of_none hends hnone⟩
    · exact run_remove_of_reaches hends h.outside hreached
  -- what the removal takes away is free for the directories that are created
  have hstart : t₁.get? (start directory p) = some .directory := by rw [herased, if_neg h.apart, h.start]
  have hfree : ∀ q ∈ target directory p :: way directory p, t₁.Free q := by
    refine List.forall_mem_cons.mpr ⟨Or.inl (by rw [herased, if_pos List.prefix_rfl]), fun q hq => ?_⟩
    rw [Free, herased]
    split
    · exact Or.inl rfl
    · exact h.free q hq
  obtain ⟨t', hcreate, hdirs⟩ := run_createAll hends.tidy h.fits hstart hfree
  have hkept := (keeps_createAll directory hends.tidy).of_run hcreate
  refine ⟨t', ?_, fun l => ?_⟩
  · have hcreate : ((createAll directory p).adapt (Failure.createDirectory p)).run t₁ = (.ok (), t') := by
      rw [Change.run_adapt, hcreate]
      rfl
    rw [claim, run_bind_of_ok hremove, run_bind_of_ok hcreate]
    rfl
  · split
    · next hl => exact hl ▸ hdirs _ List.mem_cons_self
    · next hl =>
      have hget (hway : l ∉ way directory p) : t'.get? l = t₁.get? l :=
        (hkept l trivial).resolve_right fun hmem => (List.mem_cons.mp hmem.1).elim hl hway
      split
      · next hbelow =>
        rw [hget fun hway => hl (h.outside l hway hbelow), herased, if_pos hbelow]
      · next hbelow =>
        split
        · next hway => exact hdirs l (List.mem_cons_of_mem _ hway)
        · next hway => rw [hget hway, herased, if_neg hbelow]

/-- Whether a claim succeeds or not, elsewhere it only adds directories on the way. -/
theorem keeps_claim (directory : Location) (hends : EndsIn p up n) :
    Keeps (Kept (¬ target directory p <+: ·) (way directory p)) (claim directory p) := by
  refine Keeps.bind ((keeps_remove directory hends).mono fun _ _ h => h.mono (fun _ h => h) (by simp))
    (fun _ _ _ h h' => h.trans h') fun _ => ?_
  refine Keeps.bind (Change.keeps_adapt ((keeps_createAll directory hends.tidy).mono fun t t' h l hl => ?_) _)
    (fun _ _ _ h h' => h.trans h') fun _ => Keeps.pure (Kept.refl _ _) _
  rcases h l trivial with h | ⟨hmem, h⟩
  · exact Or.inl h
  · rcases List.mem_cons.mp hmem with rfl | hmem
    · exact absurd List.prefix_rfl hl
    · exact Or.inr ⟨hmem, h⟩

theorem reachesDirectory_of_claim {c : ScratchClaim} (hne : p ≠ []) (h : (claim directory p).run t = (.ok c, t')) :
    c = ⟨p, false⟩ ∧ t'.reachesDirectory directory p = true := by
  obtain ⟨_, t₁, -, h⟩ := run_bind_eq_ok h
  obtain ⟨_, t₂, hcreate, h⟩ := run_bind_eq_ok h
  cases h
  refine ⟨rfl, reachesDirectory_of_createAll (t := t₁) hne ?_⟩
  rw [Change.run_adapt] at hcreate
  rcases hc : (createAll directory p).run t₁ with ⟨e | _, t₃⟩
  · rw [hc] at hcreate
    cases hcreate
  · rw [hc] at hcreate
    cases hcreate
    rfl

/-! ### Releases -/

section Release

variable {σ : Type} [ScratchHost σ] {c : ScratchClaim}

theorem discard_of_released (h : c.released = true) (directory : Location) (s : σ) :
    c.discard directory s = (none, s) := by rw [ScratchClaim.discard, if_pos h]

theorem discard_of_due (h : c.released = false) (directory : Location) (s : σ) : c.discard directory s =
    (leftover? ((ScratchHost.remove directory c.path).run s).1, ((ScratchHost.remove directory c.path).run s).2) := by
  have hdue : ¬c.released = true := by simp [h]
  rw [ScratchClaim.discard, if_neg hdue]
  rfl

/-- To close a claim is one removal: it is released by the time it is discarded. -/
theorem run_close (directory : Location) (c : ScratchClaim) (s : σ) :
    (c.close directory).run s = (ScratchHost.remove directory c.path).run s := by
  show (((ScratchHost.remove directory c.path).run s).1,
    (ScratchClaim.discard directory { c with released := true } ((ScratchHost.remove directory c.path).run s).2).2) = _
  rw [discard_of_released rfl]
  rfl

end Release

end ObjectTables.Scratch
