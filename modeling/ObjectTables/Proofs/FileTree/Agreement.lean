import ObjectTables.Proofs.FileTree.Removal

/-! Trees that agree. What a path operation comes to depends on the tree only through what stands on the way of the
    path and where it leads, down to the error that it fails with (`place_agree`, `locate_agree`). -/

namespace ObjectTables.FileTree

variable {t u : FileTree} {directory l : Location} {p : Path} {s : Name} {steps : List Name}

/-- Two trees have the same at some locations. -/
def Agree (ls : List Location) (t u : FileTree) : Prop := ∀ l ∈ ls, t.get? l = u.get? l

instance (ls : List Location) (t u : FileTree) : Decidable (Agree ls t u) :=
  inferInstanceAs (Decidable (∀ l ∈ ls, t.get? l = u.get? l))

theorem Agree.mono {ls ls' : List Location} (h : Agree ls t u) (hls : ∀ l ∈ ls', l ∈ ls) : Agree ls' t u :=
  fun l hl => h l (hls l hl)

theorem agree_cons {ls : List Location} : Agree (l :: ls) t u ↔ t.get? l = u.get? l ∧ Agree ls t u :=
  List.forall_mem_cons

theorem enter_agree (h : t.get? l = u.get? l) : t.enter l = u.enter l := by rw [enter, enter, h]

theorem step_agree (hl : t.get? l = u.get? l) (htoward : t.get? (toward l s) = u.get? (toward l s)) :
    t.step l s = u.step l s := by
  rw [step, step, enter_agree hl]
  by_cases hhere : s = Path.here
  · simp only [hhere, if_true]
  by_cases habove : s = Path.above
  · simp only [habove, if_true]
  rw [toward_name ⟨hhere, habove⟩] at htoward
  rw [htoward]

theorem walk_agree (h : Agree (leads l steps :: passed l steps) t u) : t.walk l steps = u.walk l steps := by
  induction steps generalizing l with
  | nil => rfl
  | cons s steps ih =>
    obtain ⟨hlead, hl, hpassed⟩ := (agree_cons.trans (and_congr_right fun _ => agree_cons)).mp h
    have hrest : Agree (leads (toward l s) steps :: passed (toward l s) steps) t u := agree_cons.mpr ⟨hlead, hpassed⟩
    have htoward : t.get? (toward l s) = u.get? (toward l s) := by
      cases steps with
      | nil => exact hlead
      | cons s' steps => exact hpassed _ List.mem_cons_self
    cases hstep : u.step l s with
    | error e => rw [walk_cons_of_error hstep, walk_cons_of_error (step_agree hl htoward ▸ hstep)]
    | ok m =>
      obtain ⟨-, rfl, -⟩ := step_eq_ok.mp hstep
      rw [walk_cons_of_ok hstep, walk_cons_of_ok ((step_agree hl htoward).trans hstep)]
      exact ih hrest

theorem locate_agree (h : Agree (target directory p :: way directory p) t u) :
    t.locate directory p = u.locate directory p := by
  rw [locate, locate, walk_agree h]
  cases hwalk : u.walk (start directory p) (Path.steps p) with
  | error e => rfl
  | ok m =>
    obtain ⟨rfl, -⟩ := walk_eq_ok.mp hwalk
    have henter : t.enter (leads (start directory p) p.steps) = u.enter (leads (start directory p) p.steps) :=
      enter_agree (h _ List.mem_cons_self)
    rw [ok_bind, ok_bind, henter]

theorem place_agree (h : Agree (way directory p) t u) : t.place directory p = u.place directory p := by
  cases hcheck : checkPath p with
  | error e =>
    rw [place, place, hcheck]
    rfl
  | ok _ =>
    rcases List.eq_nil_or_concat p.steps with hnil | ⟨up, n, hsteps⟩
    · rw [place, place, hcheck, hnil]
      rfl
    · rw [List.concat_eq_append] at hsteps
      have hup : Agree (leads (start directory p) up :: passed (start directory p) up) t u :=
        h.mono fun l hl => by rwa [way_eq hsteps, ← List.singleton_append, List.mem_append, or_comm,
          ← List.mem_append]
      rw [place_eq t directory hcheck hsteps, place_eq u directory hcheck hsteps, walk_agree hup]
      cases hwalk : u.walk (start directory p) up with
      | error e => rfl
      | ok m =>
        obtain ⟨rfl, -⟩ := walk_eq_ok.mp hwalk
        rw [ok_bind, ok_bind, enter_agree (hup _ List.mem_cons_self)]

theorem reaches_agree (h : Agree (target directory p :: way directory p) t u) :
    t.reaches directory p = u.reaches directory p := by
  rw [reaches, reaches, locate_agree h]

theorem reachesDirectory_agree (h : Agree (target directory p :: way directory p) t u) :
    t.reachesDirectory directory p = u.reachesDirectory directory p := by
  rw [reachesDirectory, reachesDirectory, locate_agree h]
  cases hlocate : u.locate directory p with
  | error e => rfl
  | ok m =>
    obtain ⟨-, rfl, -⟩ := locate_eq_ok.mp hlocate
    show t.isDirectory _ = u.isDirectory _
    rw [isDirectory, isDirectory, h _ List.mem_cons_self]

theorem read_agree (h : Agree (target directory p :: way directory p) t u) :
    t.read directory p = u.read directory p := by
  rw [read, read, locate_agree h]
  cases hlocate : u.locate directory p with
  | error e => rfl
  | ok m =>
    obtain ⟨-, rfl, -⟩ := locate_eq_ok.mp hlocate
    rw [ok_bind, ok_bind, h _ List.mem_cons_self]

theorem readText_agree (h : Agree (target directory p :: way directory p) t u) :
    t.readText directory p = u.readText directory p := by
  rw [readText, readText, read_agree h]

/-- For writing it does not matter what stands where a path leads, unless it is a directory. -/
theorem writable_agree (h : Agree (way directory p) t u)
    (htarget : t.get? (target directory p) = some .directory ↔ u.get? (target directory p) = some .directory) :
    t.writable directory p = u.writable directory p := by
  have hplace := place_agree h
  cases hp : u.place directory p with
  | error e =>
    rw [writable, writable, hplace, hp]
    rfl
  | ok place =>
    cases place with
    | entry l n slashed =>
      cases slashed with
      | false =>
        obtain ⟨-, -, -, -, -, hl, -⟩ := place_eq_entry.mp hp
        have hdir : t.isDirectory (l ++ [n]) = u.isDirectory (l ++ [n]) := by
          rw [hl, isDirectory, isDirectory, Bool.eq_iff_iff, beq_iff_eq, beq_iff_eq]
          exact htarget
        rw [writable_of_entry hp, writable_of_entry (hplace.trans hp), hdir]
      | true =>
        rw [writable, writable, hplace, hp]
        rfl
    | _ =>
      rw [writable, writable, hplace, hp]
      rfl

end ObjectTables.FileTree
