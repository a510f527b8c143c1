import ObjectTables.FileTree.Access
/-!
Scratch directories.

A scratch directory is claimed, and then belongs to its claim until the claim is released: by `close`,
which reports a failure to remove the directory, or by `discard`, which goes on without. Every claim is
discarded when it goes out of use, a closed one too, and then its flag says that nothing is left to
remove. Claims can be kept in slots, one in each.
-/
namespace ObjectTables

/-- The right to use a scratch directory, and the duty to remove it. -/
structure ScratchClaim where
  path : Path
  /-- Whether the claim has been released, so that nothing is left to remove. -/
  released : Bool
deriving DecidableEq, Repr

namespace Scratch

/-- Removes what a path leads to, if anything. -/
def remove (directory : Location) (p : Path) : Change Failure Unit := do
  if (← get).reaches directory p then
    (FileTree.removeAll directory p).adapt (Failure.removeDirectory p)

/-- Claims a scratch directory: removes what is there and creates the directory anew. -/
def claim (directory : Location) (p : Path) : Change Failure ScratchClaim := do
  remove directory p
  (FileTree.createAll directory p).adapt (Failure.createDirectory p)
  return ⟨p, false⟩

/-- The failure to remove a directory, if it was not removed. -/
def leftover? : Except Failure Unit → Option Failure
  | .ok _ => none
  | .error f => some f

end Scratch

/-- A state in which scratch directories are claimed and removed: the files of a system, or these with
something more. -/
class ScratchHost (σ : Type) where
  claim : Location → Path → ExceptT Failure (StateM σ) ScratchClaim
  remove : Location → Path → ExceptT Failure (StateM σ) Unit

instance : ScratchHost FileTree := ⟨Scratch.claim, Scratch.remove⟩

variable {σ : Type} [ScratchHost σ]

namespace ScratchClaim

/-- Removes the directory of a claim that goes out of use, unless the claim has been released. A failure
to remove it is returned. -/
def discard (directory : Location) (c : ScratchClaim) (s : σ) : Option Failure × σ :=
  if c.released then (none, s)
  else
    let (result, s') := (ScratchHost.remove directory c.path).run s
    (Scratch.leftover? result, s')

/-- Releases a claim, and fails if its directory cannot be removed. The claim goes out of use with that;
it is released by then, so discarding it has nothing to do or to tell. -/
def close (directory : Location) (c : ScratchClaim) : ExceptT Failure (StateM σ) Unit := fun s =>
  let c := { c with released := true }
  let (result, s') := (ScratchHost.remove directory c.path).run s
  (result, (c.discard directory s').2)

end ScratchClaim

/-- Claims by the names of the slots that hold them. -/
structure ScratchSlots where
  held : List (String × ScratchClaim)

namespace ScratchSlots

/-- No claim. -/
def empty : ScratchSlots := ⟨[]⟩

/-- The claim in a slot. -/
def claim? (s : ScratchSlots) (slot : String) : Option ScratchClaim := s.held.lookup slot

/-- The slots without what one of them holds. -/
def vacate (s : ScratchSlots) (slot : String) : ScratchSlots := ⟨s.held.filter (·.1 != slot)⟩

/-- Claims a scratch directory for a slot. The claim that the slot held is discarded afterwards, and
kept if the new one fails. -/
def fill (directory : Location) (slot : String) (p : Path) (s : ScratchSlots) (t : σ) :
    Except Failure ScratchClaim × ScratchSlots × σ :=
  match (ScratchHost.claim directory p).run t with
  | (.error f, t') => (.error f, s, t')
  | (.ok c, t') =>
    let t'' := match s.claim? slot with
      | some old => (old.discard directory t').2
      | none => t'
    (.ok c, ⟨(slot, c) :: (s.vacate slot).held⟩, t'')

/-- Closes the claim in a slot; `none` if it holds none. -/
def close (directory : Location) (slot : String) (s : ScratchSlots) (t : σ) :
    Option (Except Failure Unit) × ScratchSlots × σ :=
  match s.claim? slot with
  | none => (none, s, t)
  | some c =>
    let (result, t') := (c.close directory).run t
    (some result, s.vacate slot, t')

/-- Discards the claim in a slot; the answer is whether it held one. -/
def drop (directory : Location) (slot : String) (s : ScratchSlots) (t : σ) :
    Bool × ScratchSlots × σ :=
  match s.claim? slot with
  | none => (false, s, t)
  | some c => (true, s.vacate slot, (c.discard directory t).2)

end ScratchSlots

end ObjectTables
