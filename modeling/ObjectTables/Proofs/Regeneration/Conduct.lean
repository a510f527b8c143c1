import ObjectTables.Proofs.Regeneration.Part
import ObjectTables.Proofs.Publication
import ObjectTables.Proofs.Scratch

/-! The calls that a part of a run makes, whatever the tool does when it is called. A part that is to make some calls
    makes them in order, until one fails and the part with it, or until it fails otherwise (`Conducted`). This is put
    together from part to part (`Makes.bind`), since no file operation fails as a tool does (`Change.Own`). -/


namespace ObjectTables

open FileTree Run

variable {α β : Type}

namespace CallRecord

/-- What came of a call. -/
def result (tool : Tool) (r : CallRecord) : Except Failure Completion := ((tool r.call).run r.found).1

/-- The file tree that a call left. -/
def left (tool : Tool) (r : CallRecord) : FileTree := ((tool r.call).run r.found).2

end CallRecord

/-- Whether a failure is told of a tool: it ended without success, or it could not be started. -/
def Failure.ofTool : Failure → Bool
  | .tool .. | .start .. => true
  | _ => false

/-! ### Failures of the file operations -/

/-- A change never fails as a tool does. -/
def Change.Own (c : Change Failure α) : Prop := ∀ t e, (c.run t).1 = .error e → e.ofTool = false

namespace Change.Own

theorem pure (a : α) : Change.Own (Pure.pure a : Change Failure α) := fun _ _ h => nomatch h

theorem bind {c : Change Failure α} {f : α → Change Failure β} (hc : Change.Own c) (hf : ∀ a, Change.Own (f a)) :
    Change.Own (c >>= f) := by
  intro t e he
  rcases run_bind_cases c f t with ⟨e', t', hrun, hb⟩ | ⟨a, t', -, hb⟩
  · rw [hb] at he
    cases he
    exact hc t _ (by rw [hrun])
  · exact hf a t' e (by rw [← hb, he])

theorem adapt {g : Cause → Failure} (hg : ∀ e, (g e).ofTool = false) (c : Change Cause α) :
    Change.Own (c.adapt g) := by
  intro t e he
  rw [Change.run_adapt] at he
  cases hr : (c.run t).1 with
  | ok a =>
    rw [hr] at he
    cases he
  | error cause =>
    rw [hr] at he
    cases he
    exact hg cause

theorem readText (directory : Location) (p : Path) : Change.Own (Publication.readText directory p) :=
  adapt (fun _ => rfl) _

theorem writeText (directory : Location) (p : Path) (text : Text) :
    Change.Own (Publication.writeText directory p text) := adapt (fun _ => rfl) _

theorem ensureParent (directory : Location) (p : Path) : Change.Own (Publication.ensureParent directory p) := by
  intro t e he
  rcases Publication.run_ensureParent_cases directory p t with hrun | ⟨parent, above, -, -, hrun⟩
  · rw [hrun] at he
    cases he
  · rw [hrun] at he
    exact adapt (fun _ => rfl) _ t e he

theorem appendAliases (directory : Location) (header compat : Path) :
    Change.Own (Publication.appendAliases directory header compat) :=
  (readText _ _).bind fun _ => (readText _ _).bind fun _ => writeText _ _ _

theorem publish (directory : Location) (source goal : Path) : Change.Own (Publication.publish directory source goal) :=
  (readText _ _).bind fun _ => (ensureParent _ _).bind fun _ => writeText _ _ _

theorem copy (directory : Location) (source goal : Path) : Change.Own (Publication.copy directory source goal) :=
  (ensureParent _ _).bind fun _ => adapt (fun _ => rfl) _

theorem remove (directory : Location) (p : Path) : Change.Own (Scratch.remove directory p) := by
  intro t e he
  rw [Scratch.run_remove] at he
  split at he
  · exact adapt (fun _ => rfl) _ t e he
  · cases he

theorem close (directory : Location) (c : ScratchClaim) : Change.Own (c.close directory) := by
  intro t e he
  rw [Scratch.run_close] at he
  exact remove directory c.path t e he

theorem claim (directory : Location) (p : Path) : Change.Own (Scratch.claim directory p) :=
  (remove _ _).bind fun _ => (adapt (fun _ => rfl) _).bind fun _ => pure _

end Change.Own

namespace Run

/-! ### Calls in order -/

/-- How a part that is to make `calls` ends after the calls `made`: it succeeds when all of them have, it fails
    otherwise than as a tool, or it fails as its last call did. -/
inductive Conducted (tool : Tool) (calls : List Call) : Except Failure α → List CallRecord → Prop
  | finished (a : α) {made : List CallRecord} (hmade : made.map (·.call) = calls)
      (hok : ∀ r ∈ made, (r.result tool).isOk = true) : Conducted tool calls (.ok a) made
  | stopped {e : Failure} {made : List CallRecord} (he : e.ofTool = false) (hmade : made.map (·.call) <+: calls)
      (hok : ∀ r ∈ made, (r.result tool).isOk = true) : Conducted tool calls (.error e) made
  | refused {e : Failure} {made : List CallRecord} {last : CallRecord} (hlast : last.result tool = .error e)
      (hmade : (made ++ [last]).map (·.call) <+: calls) (hok : ∀ r ∈ made, (r.result tool).isOk = true) :
      Conducted tool calls (.error e) (made ++ [last])

/-- A part makes some calls in order, whatever the run before it has left. -/
def Makes (tool : Tool) (calls : List Call) (x : Run α) : Prop :=
  ∀ p, ∃ made, (x.run p).2.calls = p.calls ++ made ∧ Conducted tool calls (x.run p).1 made

namespace Conducted

variable {tool : Tool} {calls more : List Call} {e : Failure} {made made' : List CallRecord}

theorem isPrefix {r : Except Failure α} (h : Conducted tool calls r made) : made.map (·.call) <+: calls := by
  cases h with
  | finished _ hmade => exact hmade ▸ List.prefix_rfl
  | stopped _ hmade => exact hmade
  | refused _ hmade => exact hmade

theorem succeeds {r : Except Failure α} (h : Conducted tool calls r made) (a : α) (hr : r = .ok a) :
    made.map (·.call) = calls ∧ ∀ c ∈ made, (c.result tool).isOk = true := by
  subst hr
  cases h with
  | finished _ hmade hok => exact ⟨hmade, hok⟩

theorem fails {r : Except Failure α} (h : Conducted tool calls r made) (i : Nat) (c : CallRecord) (e : Failure)
    (hc : made[i]? = some c) (he : c.result tool = .error e) : i + 1 = made.length ∧ r = .error e := by
  have not_mem {ls : List CallRecord} (hok : ∀ c ∈ ls, (c.result tool).isOk = true) : c ∉ ls := by
    intro hmem
    have hisOk := hok c hmem
    rw [he] at hisOk
    cases hisOk
  cases h with
  | finished _ _ hok => exact absurd (List.mem_of_getElem? hc) (not_mem hok)
  | stopped _ _ hok => exact absurd (List.mem_of_getElem? hc) (not_mem hok)
  | @refused e' before last hlast _ hok =>
    rcases Nat.lt_or_ge i before.length with hi | hi
    · rw [List.getElem?_append_left hi] at hc
      exact absurd (List.mem_of_getElem? hc) (not_mem hok)
    · rw [List.getElem?_append_right hi, List.getElem?_singleton] at hc
      split at hc
      · next hzero =>
        obtain rfl := Option.some.inj hc
        rw [hlast] at he
        obtain rfl := Except.error.inj he
        exact ⟨by rw [List.length_append, List.length_singleton]; omega, rfl⟩
      · cases hc

theorem blames {r : Except Failure α} (h : Conducted tool calls r made) (e : Failure) (hr : r = .error e)
    (he : e.ofTool = true) : ∃ c ∈ made, c.result tool = .error e := by
  subst hr
  cases h with
  | stopped hown =>
    rw [he] at hown
    cases hown
  | refused hlast => exact ⟨_, List.mem_append_right _ (List.mem_singleton.mpr rfl), hlast⟩

/-- A part that failed has failed for every part that begins with it. -/
theorem error (h : Conducted tool calls (.error e : Except Failure α) made) (more : List Call) :
    Conducted tool (calls ++ more) (.error e : Except Failure β) made := by
  cases h with
  | stopped he hmade hok => exact .stopped he (hmade.trans (List.prefix_append _ _)) hok
  | refused hlast hmade hok => exact .refused hlast (hmade.trans (List.prefix_append _ _)) hok

/-- Calls that were made before and succeeded. -/
theorem after {r : Except Failure β} (h : Conducted tool more r made') (hmade : made.map (·.call) = calls)
    (hok : ∀ r ∈ made, (r.result tool).isOk = true) : Conducted tool (calls ++ more) r (made ++ made') := by
  have both {made' : List CallRecord} (hok' : ∀ r ∈ made', (r.result tool).isOk = true) :
      ∀ r ∈ made ++ made', (r.result tool).isOk = true := fun r hr => (List.mem_append.mp hr).elim (hok r) (hok' r)
  have onward {made' : List CallRecord} (hmade' : made'.map (·.call) <+: more) :
      (made ++ made').map (·.call) <+: calls ++ more := by
    rw [List.map_append, hmade]
    exact (List.prefix_append_right_inj _).mpr hmade'
  cases h with
  | finished b hmade' hok' => exact .finished b (by rw [List.map_append, hmade, hmade']) (both hok')
  | stopped he hmade' hok' => exact .stopped he (onward hmade') (both hok')
  | refused hlast hmade' hok' =>
    rw [← List.append_assoc]
    exact .refused hlast (by rw [List.append_assoc]; exact onward hmade') (both hok')

end Conducted

namespace Makes

variable {tool : Tool} {calls more : List Call} {x : Run α} {f : α → Run β}

theorem pure (tool : Tool) (a : α) : Makes tool [] (Pure.pure a : Run α) := fun p =>
  ⟨[], (List.append_nil _).symm, .finished a rfl (by simp)⟩

theorem change (tool : Tool) {c : Change Failure α} (hc : Change.Own c) : Makes tool [] (Run.change c) := by
  intro p
  refine ⟨[], (List.append_nil _).symm, ?_⟩
  rw [run_change]
  cases hr : (c.run p.tree).1 with
  | ok a => exact .finished a rfl (by simp)
  | error e => exact .stopped (hc _ _ hr) List.nil_prefix (by simp)

theorem note (tool : Tool) (n : Notice) : Makes tool [] (Run.note n) := fun p =>
  ⟨[], (List.append_nil _).symm, .finished () rfl (by simp)⟩

theorem bind (hx : Makes tool calls x) (hf : ∀ p a p', x.run p = (.ok a, p') → Makes tool more (f a)) :
    Makes tool (calls ++ more) (x >>= f) := by
  intro p
  obtain ⟨made, hcalls, hconducted⟩ := hx p
  rcases run_bind_cases x f p with ⟨e, p', hrun, hb⟩ | ⟨a, p', hrun, hb⟩
  · rw [hrun] at hcalls hconducted
    rw [hb]
    exact ⟨made, hcalls, hconducted.error more⟩
  · rw [hrun] at hcalls hconducted
    obtain ⟨made', hcalls', hconducted'⟩ := hf p a p' hrun p'
    cases hconducted with
    | finished _ hmade hok =>
      rw [hb, hcalls', hcalls, List.append_assoc]
      exact ⟨made ++ made', rfl, hconducted'.after hmade hok⟩

theorem under (directory : Location) (claim : ScratchClaim) (hx : Makes tool calls x) :
    Makes tool calls (Run.under directory claim x) := by
  intro p
  obtain ⟨made, hcalls, hconducted⟩ := hx p
  refine ⟨made, ?_⟩
  rcases hrun : x.run p with ⟨e | a, p'⟩
  · obtain ⟨notices, hr⟩ := run_under_of_error directory claim hrun
    rw [hrun] at hcalls hconducted
    rw [hr]
    exact ⟨hcalls, hconducted⟩
  · rw [hrun] at hcalls hconducted
    rw [run_under_of_ok directory claim hrun]
    exact ⟨hcalls, hconducted⟩

theorem generate (tool : Tool) (g : Generator) (stage : Stage) (inputs : List Path) (output : Path) :
    Makes tool [g.call stage inputs output] (Run.generate tool g stage inputs output) := by
  intro p
  refine ⟨[⟨g.call stage inputs output, p.tree⟩], ?_⟩
  rcases hr : (tool (g.call stage inputs output)).run p.tree with ⟨e | completion, t⟩
  · have hlast : (CallRecord.mk (g.call stage inputs output) p.tree).result tool = .error e := by
      rw [CallRecord.result, hr]
    rw [run_generate_of_error hr]
    have hnone : ∀ r ∈ ([] : List CallRecord), (r.result tool).isOk = true := by simp
    exact ⟨rfl, .refused hlast List.prefix_rfl hnone⟩
  · obtain ⟨notices, hrun⟩ := run_generate_of_ok hr
    have hok : (CallRecord.mk (g.call stage inputs output) p.tree).result tool = .ok completion := by
      rw [CallRecord.result, hr]
    rw [hrun]
    refine ⟨rfl, .finished completion rfl fun r hmem => ?_⟩
    rw [List.mem_singleton.mp hmem, hok]
    rfl

end Makes

end Run

end ObjectTables
