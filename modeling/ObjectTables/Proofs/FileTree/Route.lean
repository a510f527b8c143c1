import ObjectTables.Proofs.Computation
import ObjectTables.Proofs.Path

/-! Where paths lead. Without links, a path alone decides which location it leads to (`target`) and which
    ones it passes on its way there (`way`). Whether it can be walked depends on the tree only through
    what stands at these locations (`walk_eq_ok`, `locate_eq_ok`, `place_eq_entry`). Where they are free,
    the one thing that stops a walk is that something is missing (`walk_of_free`). -/

namespace ObjectTables.FileTree

variable {t : FileTree} {l m : Location} {s : Name} {steps : List Name}

/-! ### Locations -/

theorem node?_append (t : FileTree) (l m : Location) : t.node? (l ++ m) = (t.node? l).bind (·.at? m) := by
  rw [node?, node?]
  generalize Node.directory t.children = node
  induction l generalizing node with
  | nil => simp
  | cons name l ih =>
    rw [List.cons_append, Node.at?_cons, Node.at?_cons, Option.bind_assoc]
    exact congrArg _ (funext ih)

/-- Whatever something lies in is a directory. -/
theorem get?_of_isPrefix (hm : (t.get? m).isSome = true) (h : l <+: m) (hne : l ≠ m) :
    t.get? l = some .directory := by
  obtain ⟨r, rfl⟩ := h
  cases r with
  | nil => exact absurd (List.append_nil l).symm hne
  | cons name r =>
    rw [get?, node?_append] at hm
    rw [get?]
    cases hl : t.node? l with
    | none => simp [hl] at hm
    | some node =>
      cases node with
      | directory children => rfl
      | file content => simp [hl, Node.children] at hm

theorem get?_eq_none_of_isPrefix (hl : t.get? l ≠ some .directory) (h : l <+: m) (hne : l ≠ m) : t.get? m = none :=
  Option.eq_none_iff_forall_ne_some.mpr fun e he => hl (get?_of_isPrefix (by rw [he]; rfl) h hne)

/-- Nothing but a directory stands at a location. -/
def Free (t : FileTree) (l : Location) : Prop := t.get? l = none ∨ t.get? l = some .directory

instance (t : FileTree) (l : Location) : Decidable (t.Free l) := inferInstanceAs (Decidable (_ ∨ _))

/-! ### Steps -/

/-- Where a step leads, whatever stands there. -/
def toward (l : Location) (s : Name) : Location :=
  if s = Path.here then l else if s = Path.above then l.dropLast else l ++ [s]

/-- Where some steps lead. -/
def leads (l : Location) (steps : List Name) : Location := steps.foldl toward l

/-- The locations that some steps are taken from. -/
def passed (l : Location) : List Name → List Location
  | [] => []
  | s :: steps => l :: passed (toward l s) steps

@[simp] theorem leads_nil (l : Location) : leads l [] = l := rfl

@[simp] theorem leads_cons (l : Location) (s : Name) (steps : List Name) :
    leads l (s :: steps) = leads (toward l s) steps := rfl

@[simp] theorem passed_nil (l : Location) : passed l [] = [] := rfl

@[simp] theorem passed_cons (l : Location) (s : Name) (steps : List Name) :
    passed l (s :: steps) = l :: passed (toward l s) steps := rfl

theorem leads_append (l : Location) (a b : List Name) : leads l (a ++ b) = leads (leads l a) b := List.foldl_append

theorem passed_append (l : Location) (a b : List Name) :
    passed l (a ++ b) = passed l a ++ passed (leads l a) b := by
  induction a generalizing l with
  | nil => rfl
  | cons s a ih => exact congrArg (l :: ·) (ih (toward l s))

theorem toward_name (h : s ≠ Path.here ∧ s ≠ Path.above) (l : Location) : toward l s = l ++ [s] := by
  rw [toward, if_neg h.1, if_neg h.2]

theorem leads_stays {stays : List Name} (h : ∀ s ∈ stays, s = Path.here) (l : Location) : leads l stays = l := by
  induction stays with
  | nil => rfl
  | cons s stays ih =>
    obtain ⟨rfl, hs⟩ := List.forall_mem_cons.mp h
    exact ih hs

theorem mem_passed_stays {stays : List Name} (h : ∀ s ∈ stays, s = Path.here) (hm : m ∈ passed l stays) : m = l := by
  induction stays with
  | nil => exact absurd hm List.not_mem_nil
  | cons s stays ih =>
    obtain ⟨rfl, hs⟩ := List.forall_mem_cons.mp h
    exact (List.mem_cons.mp hm).elim id (ih hs)

theorem enter_of_directory (h : t.get? l = some .directory) : t.enter l = .ok () := by rw [enter, h]

theorem enter_of_none (h : t.get? l = none) : t.enter l = .error (.system .notFound) := by rw [enter, h]

theorem directory_of_enter (h : t.enter l = .ok ()) : t.get? l = some .directory := by
  rw [enter] at h
  split at h
  · next hl => exact hl
  · exact absurd h (by simp)
  · exact absurd h (by simp)

theorem step_of_directory (h : t.get? l = some .directory) (s : Name) : t.step l s =
    if s = Path.here then .ok l else if s = Path.above then .ok l.dropLast
    else if maxName < s.length then .error (.system .nameTooLong)
    else if (t.get? (l ++ [s])).isNone then .error (.system .notFound) else .ok (l ++ [s]) := by
  rw [step, enter_of_directory h]
  repeat' split
  all_goals rfl

theorem step_of_none (h : t.get? l = none) (s : Name) : t.step l s = .error (.system .notFound) := by
  rw [step, enter_of_none h]
  rfl

theorem directory_of_step (h : t.step l s = .ok m) : t.get? l = some .directory := by
  refine directory_of_enter ?_
  rw [step] at h
  cases he : t.enter l with
  | ok => rfl
  | error e =>
    rw [he] at h
    exact absurd h (by simp [bind, Except.bind])

theorem length_stay_le : s = Path.here ∨ s = Path.above → s.length ≤ maxName := by
  rintro (rfl | rfl)
  · decide
  · decide

theorem step_eq_ok : t.step l s = .ok m ↔
    t.get? l = some .directory ∧ m = toward l s ∧ s.length ≤ maxName ∧ (t.get? m).isSome = true := by
  constructor
  · intro h
    have hl := directory_of_step h
    have hup : (t.get? l.dropLast).isSome = true := by
      rw [get?_dropLast (by rw [hl]; rfl)]
      rfl
    rw [step_of_directory hl] at h
    rw [toward]
    split at h
    · next hs =>
      obtain rfl := Except.ok.inj h
      exact ⟨hl, (if_pos hs).symm, length_stay_le (Or.inl hs), by rw [hl]; rfl⟩
    · next hs =>
      rw [if_neg hs]
      split at h
      · next hs =>
        obtain rfl := Except.ok.inj h
        exact ⟨hl, (if_pos hs).symm, length_stay_le (Or.inr hs), hup⟩
      · next hs =>
        rw [if_neg hs]
        split at h
        · exact absurd h (by simp)
        · next hlen =>
          split at h
          · exact absurd h (by simp)
          · next hsome =>
            obtain rfl := Except.ok.inj h
            exact ⟨hl, rfl, Nat.le_of_not_lt hlen, by simpa [Option.isSome_iff_ne_none] using hsome⟩
  · rintro ⟨hl, rfl, hlen, hsome⟩
    rw [step_of_directory hl]
    rw [toward] at hsome ⊢
    split
    · rfl
    · next hs =>
      rw [if_neg hs] at hsome
      split
      · rfl
      · next hs =>
        rw [if_neg hs] at hsome
        rw [if_neg (Nat.not_lt.mpr hlen),
          if_neg (by rw [Option.isNone_iff_eq_none]; exact Option.isSome_iff_ne_none.mp hsome)]

theorem step_of_free (hl : t.Free l) (hs : s.length ≤ maxName) :
    t.step l s = .ok (toward l s) ∨ t.step l s = .error (.system .notFound) := by
  rcases hl with hl | hl
  · exact Or.inr (step_of_none hl s)
  · rw [step_of_directory hl, toward]
    split
    · exact Or.inl rfl
    · split
      · exact Or.inl rfl
      · rw [if_neg (Nat.not_lt.mpr hs)]
        split
        · exact Or.inr rfl
        · exact Or.inl rfl

theorem walk_cons (t : FileTree) (l : Location) (s : Name) (steps : List Name) :
    t.walk l (s :: steps) = t.step l s >>= (t.walk · steps) := rfl

theorem walk_cons_of_ok (h : t.step l s = .ok m) (steps : List Name) : t.walk l (s :: steps) = t.walk m steps := by
  rw [walk_cons, h]
  rfl

theorem walk_cons_of_error {e : Cause} (h : t.step l s = .error e) (steps : List Name) :
    t.walk l (s :: steps) = .error e := by
  rw [walk_cons, h]
  rfl

/-- Steps can be walked if each is taken from a directory and there is something where they lead. -/
theorem walk_eq_ok : t.walk l steps = .ok m ↔ m = leads l steps ∧
    (∀ q ∈ passed l steps, t.get? q = some .directory) ∧ (∀ s ∈ steps, s.length ≤ maxName) ∧
    (steps ≠ [] → (t.get? m).isSome = true) := by
  induction steps generalizing l with
  | nil =>
    refine ⟨fun h => ⟨(Except.ok.inj h).symm, by simp, by simp, fun hne => absurd rfl hne⟩, fun ⟨hm, _⟩ => ?_⟩
    rw [hm]
    rfl
  | cons s steps ih =>
    rw [leads_cons, passed_cons, List.forall_mem_cons, List.forall_mem_cons]
    cases hstep : t.step l s with
    | error e =>
      rw [walk_cons_of_error hstep]
      -- the step is taken if there is something where it leads: the end, or where the next is taken from
      refine ⟨fun h => absurd h (by simp), fun ⟨hm, ⟨hl, hway⟩, ⟨hs, hnames⟩, hsome⟩ => ?_⟩
      have hnext : (t.get? (toward l s)).isSome = true := by
        cases steps with
        | nil => rw [← leads_nil (toward l s), ← hm]; exact hsome (List.cons_ne_nil _ _)
        | cons s' steps => rw [hway _ List.mem_cons_self]; rfl
      rw [step_eq_ok.mpr ⟨hl, rfl, hs, hnext⟩] at hstep
      exact absurd hstep (by simp)
    | ok q =>
      obtain ⟨hl, rfl, hs, hnext⟩ := step_eq_ok.mp hstep
      rw [walk_cons_of_ok hstep, ih]
      constructor
      · rintro ⟨rfl, hway, hnames, hsome⟩
        refine ⟨rfl, ⟨hl, hway⟩, ⟨hs, hnames⟩, fun _ => ?_⟩
        cases steps with
        | nil => exact hnext
        | cons s' steps => exact hsome (List.cons_ne_nil _ _)
      · rintro ⟨rfl, ⟨-, hway⟩, ⟨-, hnames⟩, hsome⟩
        exact ⟨rfl, hway, hnames, fun _ => hsome (List.cons_ne_nil _ _)⟩

/-- Where the way is free, a walk is stopped by nothing but what is missing. -/
theorem walk_of_free (hfree : ∀ q ∈ passed l steps, t.Free q) (hnames : ∀ s ∈ steps, s.length ≤ maxName) :
    t.walk l steps = .ok (leads l steps) ∨ t.walk l steps = .error (.system .notFound) := by
  induction steps generalizing l with
  | nil => exact Or.inl rfl
  | cons s steps ih =>
    rw [passed_cons, List.forall_mem_cons] at hfree
    rw [List.forall_mem_cons] at hnames
    rcases step_of_free hfree.1 hnames.1 with h | h
    · rw [walk_cons_of_ok h]
      exact ih hfree.2 hnames.2
    · exact Or.inr (walk_cons_of_error h steps)

/-! ### Paths -/

variable {directory : Location} {p : Path} {up : List Name} {n : Name}

/-- The location that a path leads to, whatever stands there. -/
def target (directory : Location) (p : Path) : Location := leads (start directory p) p.steps

/-- The locations that a path passes on its way. -/
def way (directory : Location) (p : Path) : List Location := passed (start directory p) p.steps

/-- What a path passes lies not below the location that it leads to. -/
def Outside (directory : Location) (p : Path) : Prop :=
  ∀ q ∈ way directory p, target directory p <+: q → q = target directory p

instance (directory : Location) (p : Path) : Decidable (Outside directory p) :=
  inferInstanceAs (Decidable (∀ q ∈ way directory p, target directory p <+: q → q = target directory p))

/-- A path within the limits of the system. -/
structure Fits (p : Path) : Prop where
  noNul : 0 ∉ p
  nonempty : p ≠ []
  short : p.length ≤ maxPath
  names : ∀ s ∈ p.steps, s.length ≤ maxName

instance (p : Path) : Decidable (Fits p) :=
  decidable_of_iff (0 ∉ p ∧ p ≠ [] ∧ p.length ≤ maxPath ∧ ∀ s ∈ p.steps, s.length ≤ maxName)
    ⟨fun ⟨h₁, h₂, h₃, h₄⟩ => ⟨h₁, h₂, h₃, h₄⟩, fun h => ⟨h.noNul, h.nonempty, h.short, h.names⟩⟩

/-- A path that ends in a name, after the steps `up`. -/
structure EndsIn (p : Path) (up : List Name) (n : Name) : Prop where
  steps : p.steps = up ++ [n]
  name : n ≠ Path.here ∧ n ≠ Path.above

theorem exists_endsIn_iff :
    (∃ up n, EndsIn p up n) ↔ (p.steps.getLast?.any fun n => n != Path.here && n != Path.above) = true := by
  rcases List.eq_nil_or_concat p.steps with hnil | ⟨up, n, hsteps⟩
  · rw [hnil]
    exact ⟨fun ⟨up, n, h⟩ => absurd (hnil.symm.trans h.steps) (by simp), fun h => nomatch h⟩
  · rw [hsteps, List.concat_eq_append, List.getLast?_concat, Option.any_some, Bool.and_eq_true, bne_iff_ne, bne_iff_ne]
    refine ⟨fun ⟨up', n', h⟩ => ?_, fun h => ⟨up, n, hsteps.trans List.concat_eq_append, h⟩⟩
    obtain ⟨-, hn⟩ := List.append_inj' (List.concat_eq_append.symm.trans (hsteps.symm.trans h.steps)) rfl
    cases hn
    exact h.name

instance (p : Path) : Decidable (∃ up n, EndsIn p up n) := decidable_of_iff' _ exists_endsIn_iff

theorem start_eq_of_isPrefix {q : Path} (h : q <+: p) (hne : q ≠ []) : start directory q = start directory p := by
  rw [start, start, Path.isAbsolute_of_isPrefix h hne]

theorem way_eq (h : p.steps = up ++ [n]) :
    way directory p = passed (start directory p) up ++ [leads (start directory p) up] := by
  rw [way, h, passed_append]
  rfl

theorem leads_mem_way (h : p.steps = up ++ [n]) : leads (start directory p) up ∈ way directory p := by
  rw [way_eq h]
  exact List.mem_append_right _ List.mem_cons_self

theorem target_concat (h : p.steps = up ++ [n]) : target directory p = toward (leads (start directory p) up) n := by
  rw [target, h, leads_append]
  rfl

/-- A last step that stays or goes up leads to a directory. -/
theorem get?_target_of_stay (hway : ∀ q ∈ way directory p, t.get? q = some .directory) (h : p.steps = up ++ [n])
    (hn : n = Path.here ∨ n = Path.above) : t.get? (target directory p) = some .directory := by
  have hup := hway _ (leads_mem_way h)
  rw [target_concat h, toward]
  rcases hn with rfl | rfl
  · rw [if_pos rfl, hup]
  · rw [if_neg (by decide), if_pos rfl]
    exact get?_dropLast (by rw [hup]; rfl)

theorem EndsIn.target_eq (h : EndsIn p up n) : target directory p = leads (start directory p) up ++ [n] := by
  rw [target_concat h.steps, toward_name h.name]

theorem EndsIn.ne_nil (h : EndsIn p up n) : p ≠ [] := by
  rintro rfl
  exact absurd (congrArg List.length h.steps) (by simp [show Path.steps [] = [] from rfl])

theorem EndsIn.target_ne_nil (directory : Location) (h : EndsIn p up n) : target directory p ≠ [] := by
  rw [h.target_eq]
  exact List.concat_ne_nil n _

theorem EndsIn.dropLast_target (h : EndsIn p up n) : (target directory p).dropLast ∈ way directory p := by
  rw [h.target_eq, List.dropLast_concat]
  exact leads_mem_way h.steps

theorem checkPath_eq_ok : checkPath p = .ok () ↔ 0 ∉ p ∧ p ≠ [] ∧ p.length ≤ maxPath := by
  rw [checkPath]
  by_cases hnul : 0 ∈ p
  · rw [if_pos (by simpa using hnul)]
    exact ⟨fun h => absurd h (by simp [throw, throwThe, MonadExceptOf.throw, bind, Except.bind]),
      fun h => absurd hnul h.1⟩
  · rw [if_neg (by simpa using hnul)]
    by_cases hne : p = []
    · rw [if_pos (by simpa using hne)]
      exact ⟨fun h => absurd h (by simp [throw, throwThe, MonadExceptOf.throw, bind, Except.bind]),
        fun h => absurd hne h.2.1⟩
    · rw [if_neg (by simpa using hne)]
      by_cases hlen : maxPath < p.length
      · rw [if_pos hlen]
        exact ⟨fun h => absurd h (by simp [throw, throwThe, MonadExceptOf.throw]),
          fun h => absurd hlen (Nat.not_lt.mpr h.2.2)⟩
      · rw [if_neg hlen]
        exact ⟨fun _ => ⟨hnul, hne, Nat.le_of_not_lt hlen⟩, fun _ => rfl⟩

theorem Fits.checkPath (h : Fits p) : checkPath p = .ok () := checkPath_eq_ok.mpr ⟨h.noNul, h.nonempty, h.short⟩

theorem Fits.of_isPrefix {q : Path} (h : Fits p) (hq : q <+: p) (hne : q ≠ []) (hsteps : q.steps <+: p.steps) :
    Fits q where
  noNul hz := h.noNul (hq.subset hz)
  nonempty := hne
  short := Nat.le_trans hq.length_le h.short
  names s hs := h.names s (hsteps.subset hs)

theorem enter_eq_ok : t.enter l = .ok () ↔ t.get? l = some .directory := ⟨directory_of_enter, enter_of_directory⟩

/-- A path can be walked if it is within the limits, passes directories only and leads to something. -/
theorem locate_eq_ok : t.locate directory p = .ok m ↔ Fits p ∧ m = target directory p ∧
    (∀ q ∈ way directory p, t.get? q = some .directory) ∧ (p.steps ≠ [] → (t.get? m).isSome = true) ∧
    (Path.isSlashed p = true → t.get? m = some .directory) := by
  have hslash (q : Location) : (if Path.isSlashed p = true then do t.enter q; pure q else pure q) = .ok m ↔
      q = m ∧ (Path.isSlashed p = true → t.get? m = some .directory) := by
    split
    · next hs =>
      refine bind_eq_ok.trans ⟨fun ⟨_, hq, hm⟩ => ?_, fun ⟨hm, hq⟩ => ⟨(), enter_eq_ok.mpr (hm ▸ hq hs), hm ▸ rfl⟩⟩
      obtain rfl := Except.ok.inj hm
      exact ⟨rfl, fun _ => enter_eq_ok.mp hq⟩
    · next hs => exact ⟨fun h => ⟨Except.ok.inj h, fun h' => absurd h' hs⟩, fun h => h.1 ▸ rfl⟩
  refine bind_eq_ok.trans ⟨fun ⟨_, hcheck, h⟩ => ?_, fun ⟨hfits, hm, hway, hsome, hslashed⟩ => ?_⟩
  · obtain ⟨q, hwalk, h⟩ := bind_eq_ok.mp h
    obtain ⟨rfl, hslashed⟩ := (hslash q).mp h
    obtain ⟨hq, hway, hnames, hsome⟩ := walk_eq_ok.mp hwalk
    obtain ⟨hnul, hne, hshort⟩ := checkPath_eq_ok.mp hcheck
    exact ⟨⟨hnul, hne, hshort, hnames⟩, hq, hway, hsome, hslashed⟩
  · exact ⟨(), hfits.checkPath, bind_eq_ok.mpr ⟨m, walk_eq_ok.mpr ⟨hm, hway, hfits.names, hsome⟩,
      (hslash m).mpr ⟨rfl, hslashed⟩⟩⟩

/-- The place that a last step names. -/
def placeOf (l : Location) (n : Name) (slashed : Bool) : Place :=
  if n = Path.here then .here else if n = Path.above then .above else .entry l n slashed

theorem place_eq (t : FileTree) (directory : Location) (hcheck : checkPath p = .ok ()) (hsteps : p.steps = up ++ [n]) :
    t.place directory p = t.walk (start directory p) up >>= fun l =>
      t.enter l >>= fun _ => .ok (placeOf l n (Path.isSlashed p)) := by
  rw [place, hcheck, hsteps, List.getLast?_concat, List.dropLast_concat]
  show (t.walk _ up >>= _) = _
  refine congrArg (t.walk (start directory p) up >>= ·) (funext fun l => ?_)
  refine congrArg (t.enter l >>= ·) (funext fun _ => ?_)
  rw [placeOf]
  repeat' split
  all_goals rfl

/-- A last step names a place if the steps before it lead to a directory. -/
theorem place_eq_ok {place : Place} (hsteps : p.steps = up ++ [n]) : t.place directory p = .ok place ↔
    checkPath p = .ok () ∧ (∀ s ∈ up, s.length ≤ maxName) ∧
    (∀ q ∈ way directory p, t.get? q = some .directory) ∧
    place = placeOf (leads (start directory p) up) n (Path.isSlashed p) := by
  rw [way_eq hsteps, List.forall_mem_append, List.forall_mem_singleton]
  constructor
  · intro h
    obtain ⟨_, hcheck, -⟩ := bind_eq_ok.mp h
    rw [place_eq t directory hcheck hsteps] at h
    obtain ⟨l, hwalk, h⟩ := bind_eq_ok.mp h
    obtain ⟨_, henter, h⟩ := bind_eq_ok.mp h
    obtain ⟨rfl, hway, hnames, -⟩ := walk_eq_ok.mp hwalk
    exact ⟨hcheck, hnames, ⟨hway, enter_eq_ok.mp henter⟩, (Except.ok.inj h).symm⟩
  · rintro ⟨hcheck, hnames, ⟨hway, hl⟩, rfl⟩
    rw [place_eq t directory hcheck hsteps]
    exact bind_eq_ok.mpr ⟨_, walk_eq_ok.mpr ⟨rfl, hway, hnames, fun _ => by rw [hl]; rfl⟩,
      bind_eq_ok.mpr ⟨(), enter_eq_ok.mpr hl, rfl⟩⟩

theorem place_of_free (hfits : Fits p) (hsteps : p.steps = up ++ [n])
    (hfree : ∀ q ∈ way directory p, t.Free q) :
    (t.place directory p = .ok (placeOf (leads (start directory p) up) n (Path.isSlashed p)) ∧
      ∀ q ∈ way directory p, t.get? q = some .directory) ∨
    t.place directory p = .error (.system .notFound) := by
  have hnames : ∀ s ∈ up, s.length ≤ maxName := fun s hs =>
    hfits.names s (by rw [hsteps]; exact List.mem_append_left _ hs)
  rw [way_eq hsteps, List.forall_mem_append, List.forall_mem_singleton] at hfree
  have hplace := place_eq t directory hfits.checkPath hsteps
  rcases walk_of_free hfree.1 hnames with h | h
  · rcases hfree.2 with hl | hl
    · rw [h, ok_bind, enter_of_none hl] at hplace
      exact Or.inr hplace
    · obtain ⟨-, hway, -, -⟩ := walk_eq_ok.mp h
      rw [h, ok_bind, enter_of_directory hl] at hplace
      rw [way_eq hsteps, List.forall_mem_append, List.forall_mem_singleton]
      exact Or.inl ⟨hplace, hway, hl⟩
  · rw [h] at hplace
    exact Or.inr hplace

theorem EndsIn.placeOf_eq (h : EndsIn p up n) (l : Location) (slashed : Bool) :
    placeOf l n slashed = .entry l n slashed := by
  rw [placeOf, if_neg h.name.1, if_neg h.name.2]

theorem place_eq_entry {slashed : Bool} : t.place directory p = .ok (.entry l n slashed) ↔
    ∃ up, EndsIn p up n ∧ checkPath p = .ok () ∧ (∀ s ∈ up, s.length ≤ maxName) ∧
      (∀ q ∈ way directory p, t.get? q = some .directory) ∧
      l ++ [n] = target directory p ∧ slashed = Path.isSlashed p := by
  constructor
  · intro h
    rcases List.eq_nil_or_concat p.steps with hnil | ⟨up, last, hsteps⟩
    · rw [place, hnil] at h
      obtain ⟨_, -, h⟩ := bind_eq_ok.mp h
      cases h
    · rw [List.concat_eq_append] at hsteps
      obtain ⟨hcheck, hnames, hway, hplace⟩ := (place_eq_ok hsteps).mp h
      rw [placeOf] at hplace
      split at hplace
      · cases hplace
      · next hhere =>
        split at hplace
        · cases hplace
        · next habove =>
          obtain ⟨rfl, rfl, rfl⟩ := Place.entry.inj hplace
          have hends : EndsIn p up n := ⟨hsteps, hhere, habove⟩
          exact ⟨up, hends, hcheck, hnames, hway, hends.target_eq.symm, rfl⟩
  · rintro ⟨up, hends, hcheck, hnames, hway, hl, rfl⟩
    rw [hends.target_eq] at hl
    rw [(List.append_inj_left' hl rfl)]
    exact (place_eq_ok hends.steps).mpr ⟨hcheck, hnames, hway, (hends.placeOf_eq _ _).symm⟩

end ObjectTables.FileTree
