import ObjectTables.Proofs.Publication
import ObjectTables.Proofs.Regeneration.Part
import ObjectTables.Proofs.Sites
import ObjectTables.Proofs.Text.Utf8

/-! The scratch directory while a run works in it. `Working` says what each of its files holds and that all
    else is as it was. Reading, writing and calls of the generator keep to it, so a run is followed by what
    the files hold from step to step. -/

namespace ObjectTables

open FileTree

/-- A call succeeds, leaves `x` in its output file and changes nothing else. -/
def CallRecord.Writes (directory : Location) (tool : Tool) (r : CallRecord) (x : Bytes) : Prop :=
  ∃ completion t, (tool r.call).run r.found = (.ok completion, t) ∧
    ∀ l, t.get? l = if l = target directory r.call.output then some (.file x) else r.found.get? l

/-- The calls succeed and write some texts, in order, and nothing else. -/
def Answered (directory : Location) (tool : Tool) (texts : List Text) (calls : List CallRecord) : Prop :=
  ∀ (i : Nat) (r : CallRecord) (text : Text), calls[i]? = some r → texts[i]? = some text →
    r.Writes directory tool text.encode

/-- Whatever comes of its calls, a tool touches nothing but their output files. -/
def Tool.Confined (directory : Location) (tool : Tool) : Prop :=
  ∀ (call : Call) (t : FileTree) (l : Location), ¬ target directory call.output <+: l →
    ((tool call).run t).2.get? l = t.get? l

namespace Regeneration

/-- What the files in a scratch directory hold once one of them is written. -/
def put (content : Name → Option Bytes) (n : Name) (x : Bytes) : Name → Option Bytes :=
  fun m => if m = n then some x else content m

@[simp] theorem put_self (content : Name → Option Bytes) (n : Name) (x : Bytes) : put content n x n = some x :=
  if_pos rfl

theorem put_of_ne {n m : Name} (h : m ≠ n) (content : Name → Option Bytes) (x : Bytes) :
    put content n x m = content m := if_neg h

/-- A path that names an entry of the scratch directory. -/
structure Inside (scratch file : Path) (n : Name) : Prop where
  path : file = Path.join scratch n
  name : IsName n

/-- The files in the scratch directory hold `content`; outside it all is as in the tree `before`. -/
structure Working (directory : Location) (scratch : Path) (before : FileTree) (content : Name → Option Bytes)
    (t : FileTree) : Prop where
  outside : Outside directory scratch
  way : ∀ q ∈ way directory scratch, t.get? q = some .directory
  claimed : t.get? (target directory scratch) = some .directory
  files : ∀ n, t.get? (target directory scratch ++ [n]) = (content n).map .file
  others : ∀ l, ¬ target directory scratch <+: l → t.get? l = before.get? l

variable {directory : Location} {scratch file p : Path} {before t t' : FileTree} {content : Name → Option Bytes}
  {n : Name} {x : Bytes} {text : Text}

namespace Inside

theorem endsIn (h : Inside scratch file n) : ∃ up n, EndsIn file up n :=
  ⟨_, _, h.path ▸ endsIn_join scratch h.name⟩

theorem target_eq (h : Inside scratch file n) : target directory file = target directory scratch ++ [n] := by
  rw [h.path, target_join directory scratch h.name]

theorem not_slashed (h : Inside scratch file n) : Path.isSlashed file = false := by
  rw [h.path]
  exact Path.isSlashed_join_step scratch h.name.step

end Inside

namespace Working

theorem way_file (h : Working directory scratch before content t) (hf : Inside scratch file n) :
    ∀ q ∈ FileTree.way directory file, t.get? q = some .directory := by
  rw [hf.path, way_join directory scratch hf.name]
  exact List.forall_mem_append.mpr ⟨h.way, List.forall_mem_singleton.mpr h.claimed⟩

theorem readText (h : Working directory scratch before content t) (hf : Inside scratch file n) (hfits : Fits file)
    (hc : content n = some text.encode) : t.readText directory file = .ok text := by
  have hfile : t.get? (target directory file) = some (.file text.encode) := by
    rw [hf.target_eq, h.files, hc]
    rfl
  refine readText_eq_ok.mpr ⟨text.encode, read_eq_ok.mpr ⟨_, ?_, hfile⟩, Bytes.decode?_encode text⟩
  refine locate_eq_ok.mpr ⟨hfits, rfl, h.way_file hf, fun _ => by rw [hfile]; rfl, fun hslashed => ?_⟩
  rw [hf.not_slashed] at hslashed
  cases hslashed

theorem of_put (h : Working directory scratch before content t)
    (hget : ∀ l, t'.get? l = if l = target directory scratch ++ [n] then some (.file x) else t.get? l) :
    Working directory scratch before (put content n x) t' where
  outside := h.outside
  way q hq := by
    rw [hget, if_neg, h.way q hq]
    rintro rfl
    have := h.outside _ hq (List.prefix_append _ _)
    simp at this
  claimed := by rw [hget, if_neg (by simp), h.claimed]
  files m := by
    rw [hget, put]
    by_cases hm : m = n
    · rw [if_pos (by rw [hm]), if_pos hm]
      rfl
    · rw [if_neg (by simpa using hm), if_neg hm, h.files]
  others l hl := by
    rw [hget, if_neg, h.others l hl]
    rintro rfl
    exact hl (List.prefix_append _ _)

theorem run_writeText (h : Working directory scratch before content t) (hf : Inside scratch file n) (hfits : Fits file)
    (text : Text) : ∃ t', (Publication.writeText directory file text).run t = (.ok (), t') ∧
      Working directory scratch before (put content n text.encode) t' := by
  have hwritable : t.writable directory file = .ok (target directory file) := by
    refine writable_eq_ok.mpr ⟨hf.endsIn, hfits, hf.not_slashed, rfl, h.way_file hf, ?_⟩
    rw [hf.target_eq, h.files]
    cases content n <;> simp
  obtain ⟨t', hwrite⟩ := write_of_writable hwritable text.encode
  refine ⟨t', Publication.run_writeText_of_ok hwrite, h.of_put fun l => ?_⟩
  rw [get?_of_write hwrite, hf.target_eq]

theorem readText_before (h : Working directory scratch before content t)
    (hclear : ∀ l ∈ target directory p :: FileTree.way directory p, ¬ target directory scratch <+: l)
    (hread : before.readText directory p = .ok text) : t.readText directory p = .ok text := by
  have hkept : Kept (¬ target directory scratch <+: ·) [] before t := fun l hl => Or.inl (h.others l hl)
  exact hkept.readText hclear hread

end Working

/-- A call that is answered leaves its text in its output file. -/
theorem does_generate {tool : Tool} {texts : List Text} {calls : List CallRecord} {q : Progress}
    (hanswered : Answered directory tool texts calls) (htext : texts[q.calls.length]? = some text)
    (hf : Inside scratch file n) (h : Working directory scratch before content q.tree) (g : Generator) (stage : Stage)
    (inputs : List Path) : Run.Does calls (Run.generate tool g stage inputs file) q fun _ q' =>
      Working directory scratch before (put content n text.encode) q'.tree ∧ q'.calls.length = q.calls.length + 1 := by
  intro hcalls
  have writes (hpre : q.calls ++ [⟨g.call stage inputs file, q.tree⟩] <+: calls) :
      CallRecord.Writes directory tool ⟨g.call stage inputs file, q.tree⟩ text.encode := by
    obtain ⟨more, hmore⟩ := hpre
    refine hanswered q.calls.length _ text ?_ htext
    rw [← hmore, List.append_assoc, List.getElem?_append_right (Nat.le_refl _), Nat.sub_self]
    rfl
  rcases hr : (tool (g.call stage inputs file)).run q.tree with ⟨e | completion, t⟩
  · rw [Run.run_generate_of_error hr] at hcalls
    obtain ⟨completion, t', hok, -⟩ := writes hcalls
    rw [show (tool _).run _ = _ from hr] at hok
    cases hok
  · obtain ⟨notices, hrun⟩ := Run.run_generate_of_ok hr
    rw [hrun] at hcalls
    obtain ⟨completion', t', hok, hget⟩ := writes hcalls
    rw [show (tool _).run _ = _ from hr] at hok
    cases hok
    refine ⟨completion, _, hrun, h.of_put fun l => ?_, by simp⟩
    rw [hget l, ← hf.target_eq]
    rfl

end Regeneration

end ObjectTables
