import ObjectTables.Regeneration
import ObjectTables.Proofs.Computation

/-! The parts of a run. A part adds calls to the list at most (`Grows`). So what is known of all calls of a run is
    known of those that a part has made: `Does` states what a part does if its calls are among some given
    ones, and is put together from part to part (`Does.bind`). -/

namespace ObjectTables

open Run

variable {α β : Type} {x : Run α} {f : α → Run β} {p p' : Progress} {a : α} {e : Failure}

namespace Run

/-! ### Elementary parts -/

theorem run_change (c : Change Failure α) (p : Progress) :
    (change c).run p = ((c.run p.tree).1, { p with tree := (c.run p.tree).2 }) := rfl

theorem run_change_of_ok {c : Change Failure α} {t : FileTree} (h : c.run p.tree = (.ok a, t)) :
    (change c).run p = (.ok a, { p with tree := t }) := by
  rw [run_change, h]

theorem run_note (n : Notice) (p : Progress) :
    (note n).run p = (.ok (), { p with notices := p.notices ++ [n] }) := rfl

theorem run_under_of_ok (directory : Location) (claim : ScratchClaim) (h : x.run p = (.ok a, p')) :
    (under directory claim x).run p = (.ok a, p') := by
  show under directory claim x p = _
  rw [under, h]

theorem run_under_eq_discard (directory : Location) (claim : ScratchClaim) (h : x.run p = (.error e, p')) :
    (under directory claim x).run p = (.error e, ⟨(claim.discard directory p'.tree).2,
      p'.notices ++ ((claim.discard directory p'.tree).1.map Notice.leftover).toList, p'.calls⟩) := by
  show under directory claim x p = _
  rw [under, h]

/-- The claim of a failed part is discarded. -/
theorem run_under_of_error (directory : Location) (claim : ScratchClaim) (h : x.run p = (.error e, p')) :
    ∃ notices, (under directory claim x).run p =
      (.error e, ⟨(claim.discard directory p'.tree).2, notices, p'.calls⟩) :=
  ⟨_, run_under_eq_discard directory claim h⟩

theorem run_under_eq_ok {directory : Location} {claim : ScratchClaim}
    (h : (under directory claim x).run p = (.ok a, p')) : x.run p = (.ok a, p') := by
  rcases hx : x.run p with ⟨e | b, q⟩
  · obtain ⟨notices, hunder⟩ := run_under_of_error directory claim hx
    rw [hunder] at h
    cases h
  · rwa [run_under_of_ok directory claim hx] at h

section Generate

variable {tool : Tool} {g : Generator} {stage : Stage} {inputs : List Path} {output : Path} {t : FileTree}

theorem run_modify (h : Progress → Progress) (p : Progress) : (modify h : Run Unit).run p = (.ok (), h p) := rfl

theorem run_generate_of_ok {completion : Completion}
    (h : (tool (g.call stage inputs output)).run p.tree = (.ok completion, t)) :
    ∃ notices, (generate tool g stage inputs output).run p =
      (.ok completion, ⟨t, notices, p.calls ++ [⟨g.call stage inputs output, p.tree⟩]⟩) := by
  have hchange : (change (tool (g.call stage inputs output))).run
      ⟨p.tree, p.notices, p.calls ++ [⟨g.call stage inputs output, p.tree⟩]⟩ =
      (.ok completion, ⟨t, p.notices, p.calls ++ [⟨g.call stage inputs output, p.tree⟩]⟩) := run_change_of_ok h
  rw [generate, run_bind_of_ok (run_modify _ p), run_bind_of_ok hchange]
  dsimp only
  split
  · exact ⟨_, rfl⟩
  · exact ⟨_, rfl⟩

theorem run_generate_of_error (h : (tool (g.call stage inputs output)).run p.tree = (.error e, t)) :
    (generate tool g stage inputs output).run p =
      (.error e, ⟨t, p.notices, p.calls ++ [⟨g.call stage inputs output, p.tree⟩]⟩) := by
  have hchange : (change (tool (g.call stage inputs output))).run
      ⟨p.tree, p.notices, p.calls ++ [⟨g.call stage inputs output, p.tree⟩]⟩ =
      (.error e, ⟨t, p.notices, p.calls ++ [⟨g.call stage inputs output, p.tree⟩]⟩) := by
    rw [run_change, h]
  rw [generate, run_bind_of_ok (run_modify _ p), run_bind_of_error hchange]

end Generate

/-! ### What a part did -/

theorem change_eq {c : Change Failure α} {r : Except Failure α} (h : (change c).run p = (r, p')) :
    c.run p.tree = (r, p'.tree) ∧ p'.calls = p.calls := by
  rw [run_change] at h
  obtain ⟨hresult, rfl⟩ := Prod.mk.inj h
  exact ⟨Prod.ext hresult rfl, rfl⟩

theorem notices_of_change {c : Change Failure α} {r : Except Failure α} (h : (change c).run p = (r, p')) :
    p'.notices = p.notices := by
  rw [run_change] at h
  obtain ⟨-, rfl⟩ := Prod.mk.inj h
  rfl

theorem notices_of_note {n : Notice} (h : (note n).run p = (.ok (), p')) : p'.notices = p.notices ++ [n] := by
  rw [run_note] at h
  obtain ⟨-, rfl⟩ := Prod.mk.inj h
  rfl

theorem note_eq_ok {n : Notice} (h : (note n).run p = (.ok (), p')) : p'.tree = p.tree ∧ p'.calls = p.calls := by
  rw [run_note] at h
  obtain ⟨-, rfl⟩ := Prod.mk.inj h
  exact ⟨rfl, rfl⟩

theorem generate_eq_ok {tool : Tool} {g : Generator} {stage : Stage} {inputs : List Path} {output : Path}
    {completion : Completion} (h : (generate tool g stage inputs output).run p = (.ok completion, p')) :
    (tool (g.call stage inputs output)).run p.tree = (.ok completion, p'.tree) ∧
      p'.calls = p.calls ++ [⟨g.call stage inputs output, p.tree⟩] := by
  rcases hr : (tool (g.call stage inputs output)).run p.tree with ⟨e | c, t⟩
  · rw [run_generate_of_error hr] at h
    cases h
  · obtain ⟨notices, hrun⟩ := run_generate_of_ok hr
    rw [hrun] at h
    cases h
    exact ⟨rfl, rfl⟩

/-! ### What a part keeps -/

/-- Two moments of a run, by their file trees. -/
def OnTree (R : FileTree → FileTree → Prop) (p p' : Progress) : Prop := R p.tree p'.tree

section Keeps

variable {R : FileTree → FileTree → Prop}

theorem keeps_change {c : Change Failure α} (h : Keeps R c) : Keeps (OnTree R) (change c) := fun p => h p.tree

theorem keeps_note (refl : ∀ t, R t t) (n : Notice) : Keeps (OnTree R) (note n) := fun p => refl p.tree

theorem keeps_pure (refl : ∀ t, R t t) (a : α) : Keeps (OnTree R) (pure a : Run α) := fun p => refl p.tree

theorem keeps_generate {tool : Tool} {g : Generator} {stage : Stage} {inputs : List Path} {output : Path}
    (h : Keeps R (tool (g.call stage inputs output))) :
    Keeps (OnTree R) (generate tool g stage inputs output) := by
  intro p
  have hp := h p.tree
  rcases hr : (tool (g.call stage inputs output)).run p.tree with ⟨e | c, t⟩
  · rw [run_generate_of_error hr]
    rwa [hr] at hp
  · obtain ⟨notices, hrun⟩ := run_generate_of_ok hr
    rw [hrun]
    rwa [hr] at hp

end Keeps

/-! ### Calls -/

/-- A part adds calls to the list at most. -/
class Grows (x : Run α) : Prop where
  grows : ∀ p, p.calls <+: (x.run p).2.calls

instance (a : α) : Grows (pure a : Run α) := ⟨fun _ => List.prefix_rfl⟩

instance (c : Change Failure α) : Grows (change c) := ⟨fun _ => List.prefix_rfl⟩

instance (n : Notice) : Grows (note n) := ⟨fun _ => List.prefix_rfl⟩

instance [Grows x] [∀ a, Grows (f a)] : Grows (x >>= f) where
  grows p := by
    have hx := Grows.grows (x := x) p
    rcases run_bind_cases x f p with ⟨e, p', h, hb⟩ | ⟨a, p', h, hb⟩
    · rw [hb]
      rwa [h] at hx
    · rw [hb]
      rw [h] at hx
      exact hx.trans (Grows.grows p')

instance {c : Prop} [Decidable c] {y : Run α} [Grows x] [Grows y] : Grows (if c then x else y) := by
  split <;> infer_instance

instance (tool : Tool) (g : Generator) (stage : Stage) (inputs : List Path) (output : Path) :
    Grows (generate tool g stage inputs output) where
  grows p := by
    rcases h : (tool (g.call stage inputs output)).run p.tree with ⟨e | completion, t⟩
    · rw [run_generate_of_error h]
      exact List.prefix_append _ _
    · obtain ⟨notices, hr⟩ := run_generate_of_ok h
      rw [hr]
      exact List.prefix_append _ _

/-! ### What a part does -/

/-- If the calls of a part are among some calls, it succeeds, and `Q` holds of its result and of the run
    after it. -/
def Does (calls : List CallRecord) (x : Run α) (p : Progress) (Q : α → Progress → Prop) : Prop :=
  (x.run p).2.calls <+: calls → ∃ a p', x.run p = (.ok a, p') ∧ Q a p'

namespace Does

variable {calls : List CallRecord} {Q : α → Progress → Prop} {R : β → Progress → Prop}

theorem pure (h : Q a p) : Does calls (Pure.pure a) p Q := fun _ => ⟨a, p, rfl, h⟩

theorem bind [∀ a, Grows (f a)] (hx : Does calls x p Q) (hf : ∀ a p', Q a p' → Does calls (f a) p' R) :
    Does calls (x >>= f) p R := by
  intro hcalls
  rcases run_bind_cases x f p with ⟨e, p', h, hb⟩ | ⟨a, p', h, hb⟩
  · rw [hb] at hcalls
    obtain ⟨b, q, hq, -⟩ := hx (by rwa [h])
    rw [h] at hq
    cases hq
  · rw [hb] at hcalls ⊢
    obtain ⟨b, q, hq, hQ⟩ := hx (by rw [h]; exact (Grows.grows p').trans hcalls)
    rw [h] at hq
    cases hq
    exact hf _ _ hQ hcalls

theorem change {c : Change Failure α} {t : FileTree} (h : c.run p.tree = (.ok a, t)) (hQ : Q a { p with tree := t }) :
    Does calls (Run.change c) p Q := fun _ => ⟨a, _, run_change_of_ok h, hQ⟩

theorem bind_of_ok (h : x.run p = (.ok a, p')) (hf : Does calls (f a) p' R) : Does calls (x >>= f) p R := by
  intro hcalls
  rw [run_bind_of_ok h] at hcalls ⊢
  exact hf hcalls

theorem bind_change {c : Change Failure α} {t : FileTree} (h : c.run p.tree = (.ok a, t))
    (hf : Does calls (f a) { p with tree := t } R) : Does calls (Run.change c >>= f) p R :=
  bind_of_ok (run_change_of_ok h) hf

theorem bind_note {n : Notice} {f : Unit → Run β}
    (hf : ∀ notices, Does calls (f ()) { p with notices := notices } R) : Does calls (Run.note n >>= f) p R :=
  bind_of_ok (run_note n p) (hf _)

theorem under {directory : Location} {claim : ScratchClaim} (h : Does calls x p Q) :
    Does calls (Run.under directory claim x) p Q := by
  intro hcalls
  rcases hx : x.run p with ⟨e | a, p'⟩
  · obtain ⟨notices, hr⟩ := run_under_of_error directory claim hx
    rw [hr] at hcalls
    obtain ⟨b, q, hq, -⟩ := h (by rwa [hx])
    rw [hx] at hq
    cases hq
  · have hr := run_under_of_ok directory claim hx
    rw [hr] at hcalls
    obtain ⟨b, q, hq, hQ⟩ := h (by rwa [hx])
    rw [hx] at hq
    cases hq
    exact ⟨a, p', hr, hQ⟩

end Does

end Run

end ObjectTables
