import ObjectTables.Proofs.Scratch

/-! A record of removals. Claims can be made and released with a record beside the files of what is removed for them,
    and this changes nothing else. Whether a claim is closed, dropped or replaced in its slot, one removal is recorded
    (`close_recorded`, `drop_recorded`, `fill_recorded`), so nothing removes the directory of a claim a second time. -/

namespace ObjectTables

namespace Scratch

/-- The files of a system, and the scratch directories whose removal was tried for their claims, in order. What a new
    claim finds in its place is removed for no claim. -/
structure Recorded where
  tree : FileTree
  removals : List Path

instance : ScratchHost Recorded where
  claim directory p := fun r =>
    let (result, t) := (claim directory p).run r.tree
    (result, ⟨t, r.removals⟩)
  remove directory p := fun r =>
    let (result, t) := (remove directory p).run r.tree
    (result, ⟨t, r.removals ++ [p]⟩)

theorem run_claim_recorded (directory : Location) (p : Path) (r : Recorded) :
    (ScratchHost.claim directory p).run r = (((ScratchHost.claim directory p).run r.tree).1,
      ⟨((ScratchHost.claim directory p).run r.tree).2, r.removals⟩) := rfl

theorem run_close_recorded (directory : Location) (c : ScratchClaim) (r : Recorded) : (c.close directory).run r =
    (((c.close directory).run r.tree).1, ⟨((c.close directory).run r.tree).2, r.removals ++ [c.path]⟩) := by
  rw [run_close, run_close]
  rfl

theorem discard_recorded {c : ScratchClaim} (h : c.released = false) (directory : Location) (r : Recorded) :
    (c.discard directory r).2 = ⟨(c.discard directory r.tree).2, r.removals ++ [c.path]⟩ := by
  rw [discard_of_due h, discard_of_due h]
  rfl

end Scratch

namespace ScratchSlots

open Scratch

variable {s : ScratchSlots} {slot : String}

/-- To close a slot removes the directory of its claim once. -/
theorem close_recorded (directory : Location) (slot : String) (s : ScratchSlots) (r : Recorded) :
    s.close directory slot r = ((s.close directory slot r.tree).1, (s.close directory slot r.tree).2.1,
      ⟨(s.close directory slot r.tree).2.2, r.removals ++ (s.claim? slot).toList.map ScratchClaim.path⟩) := by
  rw [close, close]
  cases s.claim? slot with
  | none =>
    rw [Option.toList_none, List.map_nil, List.append_nil]
  | some c =>
    show (some ((c.close directory).run r).1, s.vacate slot, ((c.close directory).run r).2) = _
    rw [run_close_recorded]
    rfl

/-- To drop a claim that is not released removes its directory once. -/
theorem drop_recorded (h : ∀ c, s.claim? slot = some c → c.released = false) (directory : Location) (r : Recorded) :
    s.drop directory slot r = ((s.drop directory slot r.tree).1, (s.drop directory slot r.tree).2.1,
      ⟨(s.drop directory slot r.tree).2.2, r.removals ++ (s.claim? slot).toList.map ScratchClaim.path⟩) := by
  rw [drop, drop]
  cases hc : s.claim? slot with
  | none => rw [Option.toList_none, List.map_nil, List.append_nil]
  | some c =>
    show (true, s.vacate slot, (c.discard directory r).2) = _
    rw [discard_recorded (h c hc)]
    rfl

/-- A reset that succeeds removes the directory of the claim that its slot held once, and one that fails removes none
    for a claim. -/
theorem fill_recorded (h : ∀ c, s.claim? slot = some c → c.released = false) (directory : Location) (p : Path)
    (r : Recorded) : s.fill directory slot p r =
      ((s.fill directory slot p r.tree).1, (s.fill directory slot p r.tree).2.1,
        ⟨(s.fill directory slot p r.tree).2.2, r.removals ++ if (s.fill directory slot p r.tree).1.isOk then
          (s.claim? slot).toList.map ScratchClaim.path else []⟩) := by
  rw [fill, fill, run_claim_recorded]
  rcases (ScratchHost.claim directory p).run r.tree with ⟨f | c, t⟩
  · show (_, _, (⟨t, r.removals⟩ : Recorded)) = (_, _, ⟨t, r.removals ++ []⟩)
    rw [List.append_nil]
  · cases hc : s.claim? slot with
    | none =>
      show (_, _, (⟨t, r.removals⟩ : Recorded)) = (_, _, ⟨t, r.removals ++ []⟩)
      rw [List.append_nil]
    | some old =>
      show (_, _, (old.discard directory (⟨t, r.removals⟩ : Recorded)).2) = _
      rw [discard_recorded (h old hc)]
      rfl

end ScratchSlots

end ObjectTables
