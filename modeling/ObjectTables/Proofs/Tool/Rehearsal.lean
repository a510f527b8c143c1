import ObjectTables.Tool.Rehearsal
import ObjectTables.Proofs.Regeneration.Preparation

/-! Rehearsed tools, as the theorems on runs take tools. Without deeds they keep to the output files of their
    calls (`confined`), and where these can be written a plan that writes a text and succeeds answers its
    call with the text (`answered`). -/

namespace ObjectTables.Rehearsal

open FileTree

variable {directory : Location} {plans : Plans} {call : Call} {t : FileTree} {text : Text}

/-- A plan that writes a text and succeeds. -/
def Plan.printing (text : Text) : Plan := { output? := some [.literal text.encode] }

theorem keeps_end (P : Location → Prop) (call : Call) (outcome : Outcome) : Keeps (Kept P [])
    (match outcome with
      | .doesNotStart cause => throw (.start call.program cause)
      | .exits code stderr =>
        if code = 0 then pure ⟨call.output, stderr⟩ else throw (.tool call.program code stderr) :
      Change Failure Completion) := by
  cases outcome with
  | doesNotStart cause => exact Keeps.throw (Kept.refl P []) _
  | exits code stderr =>
    dsimp only
    split
    · exact Keeps.pure (Kept.refl P []) _
    · exact Keeps.throw (Kept.refl P []) _

/-- A tool whose plans have no deeds touches nothing but the output files of its calls. -/
theorem confined (h : ∀ stage, (plans.plan stage).deeds = []) : (tool directory plans).Confined directory := by
  intro call t l hl
  suffices hkeeps : Keeps (Kept (¬ target directory call.output <+: ·) []) (tool directory plans call) from
    (hkeeps t l hl).resolve_right fun hmem => absurd hmem.1 List.not_mem_nil
  rw [tool]
  dsimp only
  rw [h, List.forIn_nil]
  split
  · refine Keeps.bind (Change.keeps_adapt (Change.keeps_make (Kept.refl _ _) fun t t' hwrite l hl => ?_) _)
      (fun _ _ _ => Kept.trans) fun _ => keeps_end _ _ _
    exact Or.inl (by rw [get?_of_write hwrite, if_neg (by rintro rfl; exact hl List.prefix_rfl)])
  · exact keeps_end _ _ _

theorem writes_of_printing {r : CallRecord} (h : plans.plan (stageOf r.call) = .printing text)
    (hwritable : r.found.writable directory r.call.output = .ok (target directory r.call.output)) :
    r.Writes directory (tool directory plans) text.encode := by
  obtain ⟨t, hwrite⟩ := write_of_writable hwritable text.encode
  refine ⟨⟨r.call.output, []⟩, t, ?_, get?_of_write hwrite⟩
  have hprint : (Change.make fun t => t.write directory r.call.output
      ([Part.literal text.encode].flatMap (·.content directory t r.call))).run r.found = (.ok (), t) := by
    refine Change.run_make_of_ok ?_
    rw [List.flatMap_singleton]
    exact hwrite
  rw [tool, h]
  dsimp only [Plan.printing]
  rw [List.forIn_nil, run_bind_of_ok (by rw [Change.run_adapt, hprint]; rfl)]
  rfl

/-- Printed texts answer the calls of a run. -/
theorem answered {texts : List Text} {calls : List CallRecord}
    (h : ∀ a ∈ calls.zip texts, plans.plan (stageOf a.1.call) = .printing a.2 ∧
      a.1.found.writable directory a.1.call.output = .ok (target directory a.1.call.output)) :
    Answered directory (tool directory plans) texts calls := by
  intro i r text hr htext
  obtain ⟨hplan, hwritable⟩ := h (r, text) (List.mem_iff_getElem?.mpr ⟨i, List.getElem?_zip_eq_some.mpr ⟨hr, htext⟩⟩)
  exact writes_of_printing hplan hwritable

end ObjectTables.Rehearsal

namespace ObjectTables.Small

/-! ### A small system -/

/-- The sites of a run in the small system. -/
def sites (scratch : Path) : Sites where
  root := Path.ofString "stub"
  library := Path.ofString "../up"
  scratch := scratch

/-- The text of a string in ASCII. -/
def ascii (s : String) : Text := (Bytes.ofString s).map fun b => Char.ofNat b.toNat

/-- The texts of a run in the small system: of two objects one is kept. -/
def texts : Texts where
  fullNumbering := ascii "A\t\t1\nB\t\t2\n"
  fullHeader := ascii "#define NID_A 1\n#define NID_B 2\n"
  compatHeader := []
  numbering := ascii "A\t\t1\n"
  header := ascii "#define NID_A 0\n#endif /* OPENSSL_OBJ_MAC_H */\n"
  lookupTable := ascii "t\t\n"

/-- The source file of the small system. -/
def source : Bytes := Bytes.ofString "c"

/-- The plans that answer the calls of a run with its texts. -/
def plans : Rehearsal.Plans where
  numbering := .printing texts.numbering
  header := .printing texts.header
  lookupTable := .printing texts.lookupTable

def file (name : String) (content : Bytes) : Name × Node := (Path.ofString name, .file content)

def folder (name : String) (children : List (Name × Node)) : Name × Node := (Path.ofString name, .directory children)

/-- The small system, with some nodes more in the root of the run. -/
def system (more : List (Name × Node)) : FileTree where
  children := [
    folder "stub" more,
    folder "up" [
      folder "crypto" [
        folder "objects" [
          file "obj_mac.num" texts.fullNumbering.encode,
          file "obj_compat.h" texts.compatHeader.encode,
          file "obj_dat.c" source]],
      folder "include" [folder "openssl" [file "obj_mac.h" texts.fullHeader.encode]]]]

end ObjectTables.Small
