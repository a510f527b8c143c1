import ObjectTables.Proofs.Text.Word
import ObjectTables.Sites

/-! The steps of a path. Joining two paths appends their steps (`steps_join`), and joins can be grouped in any
    way (`join_assoc`). The ancestors of a path are prefixes of its text (`ancestors_isPrefix`) and make up a
    ladder (`ladder_ancestors`): the steps of each are those of the next, some that stay, and one more. Each
    has the rest of them for its own ancestors (`ancestors_of_cons`). -/

namespace ObjectTables.Path

/-! ### Steps -/

@[simp] theorem steps_nil : steps [] = [] := rfl

theorem steps_append (p q : Path) : steps (p ++ separator :: q) = steps p ++ steps q := by
  rw [steps, List.splitOn_append_cons_self, List.filter_append]
  rfl

theorem steps_cons_separator (p : Path) : steps (separator :: p) = steps p := steps_append [] p

theorem steps_append_separator (p : Path) : steps (p ++ [separator]) = steps p := by
  rw [steps_append, steps_nil, List.append_nil]

theorem steps_piece {p : Path} (h : separator ∉ p) : steps p = if p.isEmpty then [] else [p] := by
  rw [steps, List.splitOn_eq_singleton h]
  cases p <;> rfl

theorem steps_name {p : Path} (h : separator ∉ p) (hne : p ≠ []) : steps p = [p] := by
  rw [steps_piece h, if_neg (by simpa using hne)]

theorem isAbsolute_append {p : Path} (h : p ≠ []) (q : Path) : isAbsolute (p ++ q) = isAbsolute p := by
  rw [isAbsolute, isAbsolute, List.head?_append, List.head?_eq_some_head h, Option.some_or]

theorem isAbsolute_of_isPrefix {p q : Path} (h : q <+: p) (hne : q ≠ []) : isAbsolute q = isAbsolute p := by
  obtain ⟨r, rfl⟩ := h
  exact (isAbsolute_append hne r).symm

theorem isAbsolute_name {p : Path} (h : separator ∉ p) : isAbsolute p = false := by
  cases p with
  | nil => rfl
  | cons b p =>
    have hb : b ≠ separator := fun he => h (he ▸ List.mem_cons_self)
    simpa [isAbsolute] using hb

/-- Without any step, a path is the root. -/
theorem isAbsolute_of_steps_eq_nil {p : Path} (hne : p ≠ []) (h : steps p = []) : isAbsolute p = true := by
  have hpieces : ∀ s ∈ p.splitOn separator, s = [] := by simpa [steps, List.filter_eq_nil_iff] using h
  have hp : [separator].intercalate (p.splitOn separator) = p := List.intercalate_splitOn ..
  cases hs : p.splitOn separator with
  | nil =>
    rw [hs] at hp
    exact absurd hp.symm hne
  | cons s rest =>
    rw [hs] at hp hpieces
    obtain rfl := hpieces s List.mem_cons_self
    cases rest with
    | nil => exact absurd hp.symm hne
    | cons s' rest =>
      rw [List.intercalate_cons_cons] at hp
      rw [← hp]
      rfl

/-- A text that is one step of a path. -/
def IsStep (n : Name) : Prop := n ≠ [] ∧ separator ∉ n

instance (n : Name) : Decidable (IsStep n) := inferInstanceAs (Decidable (_ ∧ _))

/-! ### Joins -/

/-- What goes between a path and another one below it: one separator, unless the path is empty or ends in one. -/
def seam (p : Path) : Path := if p = [] ∨ isSlashed p = true then [] else [separator]

theorem join_eq {q : Path} (p : Path) (h : isAbsolute q = false) : join p q = p ++ (seam p ++ q) := by
  rw [join, if_neg (by simp [h]), seam]
  by_cases hp : p = [] ∨ isSlashed p = true
  · rw [if_pos hp, if_pos (by simpa using hp)]
    rfl
  · rw [if_neg hp, if_neg (by simpa using hp)]
    rfl

theorem isSlashed_append {q : Path} (p : Path) (h : q ≠ []) : isSlashed (p ++ q) = isSlashed q := by
  rw [isSlashed, isSlashed, List.getLast?_append, List.getLast?_eq_some_getLast h, Option.some_or]

theorem seam_append {q : Path} (p : Path) (h : q ≠ []) : seam (p ++ q) = seam q := by
  rw [seam, seam, isSlashed_append p h]
  simp [h]

theorem isAbsolute_join (p q : Path) : isAbsolute (join p q) = (isAbsolute p || isAbsolute q) := by
  cases hq : isAbsolute q with
  | true => rw [join_of_isAbsolute hq, hq, Bool.or_true]
  | false =>
    rw [join_eq p hq, Bool.or_false]
    by_cases hp : p = []
    · subst hp
      exact hq
    · exact isAbsolute_append hp _

theorem steps_join {q : Path} (p : Path) (h : isAbsolute q = false) : steps (join p q) = steps p ++ steps q := by
  rw [join_eq p h, seam]
  split
  · next hp =>
    rcases hp with rfl | hp
    · rfl
    · have hlast : p.getLast? = some separator := by simpa [isSlashed] using hp
      obtain ⟨r, rfl⟩ := List.getLast?_eq_some_iff.mp hlast
      rw [List.nil_append, List.append_assoc, List.singleton_append, steps_append, steps_append_separator]
  · exact steps_append p q

theorem prefix_join (p : Path) {q : Path} (h : isAbsolute q = false) : p <+: join p q := by
  rw [join_eq p h]
  exact List.prefix_append p _

/-- What goes below a join is told by the path that was joined last, even if it is empty: no separator is doubled. -/
theorem seam_join {q : Path} (p : Path) (h : isAbsolute q = false) : seam (join p q) = seam q := by
  rw [join_eq p h]
  by_cases hq : q = []
  · subst hq
    rw [List.append_nil]
    show seam (p ++ seam p) = []
    refine if_pos ?_
    rw [seam]
    split
    · next hp => rwa [List.append_nil]
    · exact Or.inr (isSlashed_append p (List.cons_ne_nil _ _))
  · rw [← List.append_assoc, seam_append _ hq]

theorem steps_join_step {n : Name} (p : Path) (h : IsStep n) : steps (join p n) = steps p ++ [n] := by
  rw [steps_join p (isAbsolute_name h.2), steps_name h.2 h.1]

theorem isAbsolute_join_step {n : Name} (p : Path) (h : IsStep n) : isAbsolute (join p n) = isAbsolute p := by
  rw [isAbsolute_join, isAbsolute_name h.2, Bool.or_false]

theorem isSlashed_join_step {n : Name} (p : Path) (h : IsStep n) : isSlashed (join p n) = false := by
  rw [join_eq p (isAbsolute_name h.2), ← List.append_assoc, isSlashed_append _ h.1, Bool.eq_false_iff]
  intro hslashed
  exact h.2 (List.mem_of_getLast? (by simpa [isSlashed] using hslashed))

theorem steps_below {p : Path} {names : List String} (h : ∀ n ∈ names, IsStep (ofString n)) :
    steps (p.below names) = steps p ++ names.map ofString := by
  induction names generalizing p with
  | nil => exact (List.append_nil _).symm
  | cons n names ih =>
    obtain ⟨hn, hnames⟩ := List.forall_mem_cons.mp h
    calc steps (p.below (n :: names)) = steps (join p (ofString n)) ++ names.map ofString := ih hnames
      _ = steps p ++ (n :: names).map ofString := by
        rw [steps_join_step p hn, List.append_assoc, List.singleton_append, List.map_cons]

theorem isAbsolute_below {p : Path} {names : List String} (h : ∀ n ∈ names, IsStep (ofString n)) :
    isAbsolute (p.below names) = isAbsolute p := by
  induction names generalizing p with
  | nil => rfl
  | cons n names ih =>
    obtain ⟨hn, hnames⟩ := List.forall_mem_cons.mp h
    exact (ih hnames).trans (isAbsolute_join_step p hn)

/-- Joining is associative, whatever the paths are: empty, absolute, or ending in a separator. -/
theorem join_assoc (p q r : Path) : join (join p q) r = join p (join q r) := by
  cases hr : isAbsolute r with
  | true => rw [join_of_isAbsolute hr, join_of_isAbsolute hr, join_of_isAbsolute hr]
  | false =>
    cases hq : isAbsolute q with
    | true =>
      have hqr : isAbsolute (join q r) = true := by rw [isAbsolute_join, hq, Bool.true_or]
      rw [join_of_isAbsolute hq, join_of_isAbsolute hqr]
    | false =>
      have hqr : isAbsolute (join q r) = false := by rw [isAbsolute_join, hq, hr, Bool.or_false]
      calc join (join p q) r = join p q ++ (seam q ++ r) := by rw [join_eq _ hr, seam_join p hq]
        _ = p ++ (seam p ++ q) ++ (seam q ++ r) := by rw [join_eq p hq]
        _ = p ++ (seam p ++ join q r) := by simp only [join_eq q hr, List.append_assoc]
        _ = join p (join q r) := (join_eq p hqr).symm

theorem join_below (p base : Path) (names : List String) : (join p base).below names = join p (base.below names) := by
  induction names generalizing base with
  | nil => rfl
  | cons n names ih =>
    calc (join p base).below (n :: names) = (join (join p base) (ofString n)).below names := rfl
      _ = (join p (join base (ofString n))).below names := by rw [join_assoc]
      _ = join p ((join base (ofString n)).below names) := ih _

/-! ### Ancestors -/

/-- Some steps are those above, some that stay, and one more. -/
def Rung (above steps : List Name) : Prop :=
  ∃ (stays : List Name) (n : Name), steps = above ++ stays ++ [n] ∧ ∀ s ∈ stays, s = here

/-- Paths lead up from some steps, a rung each, to where the steps start. -/
def Ladder (steps : List Name) : List Path → Prop
  | [] => (∀ s ∈ steps, s = here) ∨ Rung [] steps
  | p :: up => Rung p.steps steps ∧ Ladder p.steps up

theorem Rung.isPrefix {above steps : List Name} (h : Rung above steps) : above <+: steps := by
  obtain ⟨stays, n, rfl, -⟩ := h
  exact ⟨stays ++ [n], (List.append_assoc _ _ _).symm⟩

theorem Ladder.isPrefix {steps : List Name} {up : List Path} (h : Ladder steps up) {p : Path} (hp : p ∈ up) :
    p.steps <+: steps := by
  induction up generalizing steps with
  | nil => exact absurd hp List.not_mem_nil
  | cons q up ih =>
    rcases List.mem_cons.mp hp with rfl | hp
    · exact h.1.isPrefix
    · exact (ih h.2 hp).trans h.1.isPrefix

/-- The path that is a base followed by pieces, given last first. -/
def spelled (base : Path) (pieces : List Name) : Path := base ++ [separator].intercalate pieces.reverse

/-- The steps of a base and of the pieces after it. -/
def climbed (base : Path) (pieces : List Name) : List Name :=
  steps base ++ pieces.reverse.filter (!·.isEmpty)

/-- What pieces a base can have after it: none with a separator, and after a step that stays an empty one
    first. -/
structure Based (base : Path) (pieces : List Name) : Prop where
  base : base = [] ∨ base = [separator] ∨ base = here ∧ (pieces ≠ [] → pieces.getLast? = some [])
  piece : ∀ p ∈ pieces, separator ∉ p

theorem Based.tail {base : Path} {piece : Name} {up : List Name} (h : Based base (piece :: up)) : Based base up where
  base := by
    refine h.base.imp_right (Or.imp_right (And.imp_right fun hlast hup => ?_))
    rw [← hlast (List.cons_ne_nil _ _), List.getLast?_cons_of_ne_nil hup]
  piece p hp := h.piece p (List.mem_cons_of_mem _ hp)

theorem intercalate_concat {up : List Name} (h : up ≠ []) (piece : Name) :
    [separator].intercalate (up ++ [piece]) = [separator].intercalate up ++ separator :: piece := by
  induction up with
  | nil => exact absurd rfl h
  | cons p up ih =>
    cases up with
    | nil => simp [List.intercalate]
    | cons q up =>
      rw [List.cons_append, List.cons_append, List.intercalate_cons_cons, ← List.cons_append,
        ih (List.cons_ne_nil _ _), List.intercalate_cons_cons, List.append_assoc, List.append_assoc,
        List.append_assoc]

theorem spelled_cons (base : Path) (piece : Name) {up : List Name} (h : up ≠ []) :
    spelled base (piece :: up) = spelled base up ++ separator :: piece := by
  rw [spelled, spelled, List.reverse_cons, intercalate_concat (by simpa using h), List.append_assoc]

theorem steps_spelled {base : Path} {pieces : List Name} (h : Based base pieces) :
    steps (spelled base pieces) = climbed base pieces := by
  induction pieces with
  | nil => simp [spelled, climbed, List.intercalate]
  | cons piece up ih =>
    by_cases hup : up = []
    · subst hup
      have hs : separator ∉ piece := h.piece piece List.mem_cons_self
      have hp : steps piece = [piece].filter (!·.isEmpty) := by
        rw [steps_piece hs]
        cases piece <;> rfl
      have he : spelled base [piece] = base ++ piece := by simp [spelled]
      rw [he, climbed, List.reverse_singleton, ← hp]
      rcases h.base with rfl | rfl | ⟨rfl, hlast⟩
      · rfl
      · rw [List.singleton_append, steps_cons_separator]
        rfl
      · obtain rfl : piece = [] := by simpa using hlast (List.cons_ne_nil _ _)
        rfl
    · rw [spelled_cons base piece hup, steps_append, ih h.tail, climbed, climbed, List.reverse_cons,
        List.filter_append, List.append_assoc, steps_piece (h.piece piece List.mem_cons_self)]
      cases piece <;> rfl

theorem spelled_isPrefix (base : Path) (piece : Name) (up : List Name) :
    spelled base up <+: spelled base (piece :: up) := by
  by_cases hup : up = []
  · subst hup
    exact ⟨piece, by simp [spelled]⟩
  · exact ⟨separator :: piece, (spelled_cons base piece hup).symm⟩

theorem spelled_ne_nil {piece : Name} (h : piece ≠ []) (base : Path) (up : List Name) :
    spelled base (piece :: up) ≠ [] := by
  by_cases hup : up = []
  · subst hup
    simp [spelled, h]
  · rw [spelled_cons base piece hup]
    simp

/-- What a path is trailed by are prefixes of it. -/
theorem trail_isPrefix {base : Path} {pieces : List Name} {q : Path} (h : q ∈ trail base pieces) :
    q ≠ [] ∧ q <+: spelled base pieces := by
  induction pieces with
  | nil =>
    rw [trail] at h
    split at h
    · exact absurd h List.not_mem_nil
    · next hb =>
      obtain rfl := List.mem_singleton.mp h
      exact ⟨by simpa using hb, List.prefix_append _ _⟩
  | cons piece up ih =>
    have up_isPrefix : q ∈ trail base up → q ≠ [] ∧ q <+: spelled base (piece :: up) := fun hq =>
      ⟨(ih hq).1, (ih hq).2.trans (spelled_isPrefix base piece up)⟩
    rw [trail] at h
    split at h
    · exact up_isPrefix h
    · next hp =>
      simp only [Bool.or_eq_true, List.isEmpty_iff, not_or] at hp
      rcases List.mem_cons.mp h with rfl | h
      · exact ⟨spelled_ne_nil hp.1 base up, List.prefix_rfl⟩
      · exact up_isPrefix h

/-- The steps of a trail's first path are those of the whole, but for some at the end that stay; from there
    on the trail is a ladder. -/
def Trailed (steps : List Name) : List Path → Prop
  | [] => ∀ s ∈ steps, s = here
  | p :: up => (∃ stays, steps = p.steps ++ stays ∧ ∀ s ∈ stays, s = here) ∧ Ladder p.steps up

theorem Trailed.ladder {steps : List Name} {qs : List Path} (h : Trailed steps qs) (n : Name) :
    Ladder (steps ++ [n]) qs := by
  cases qs with
  | nil => exact Or.inr ⟨steps, n, rfl, h⟩
  | cons p up =>
    obtain ⟨⟨stays, rfl, hstays⟩, hup⟩ := h
    exact ⟨⟨stays, n, rfl, hstays⟩, hup⟩

theorem Trailed.stay {steps : List Name} {qs : List Path} (h : Trailed steps qs) : Trailed (steps ++ [here]) qs := by
  have hhere : ∀ s ∈ [here], s = here := fun s hs => List.mem_singleton.mp hs
  cases qs with
  | nil => exact List.forall_mem_append.mpr ⟨h, hhere⟩
  | cons p up =>
    obtain ⟨⟨stays, rfl, hstays⟩, hup⟩ := h
    exact ⟨⟨stays ++ [here], List.append_assoc _ _ _, List.forall_mem_append.mpr ⟨hstays, hhere⟩⟩, hup⟩

theorem climbed_cons (base : Path) {piece : Name} (h : piece ≠ []) (up : List Name) :
    climbed base (piece :: up) = climbed base up ++ [piece] := by
  simp [climbed, h]

theorem trailed_trail {base : Path} {pieces : List Name} (h : Based base pieces) :
    Trailed (climbed base pieces) (trail base pieces) := by
  induction pieces with
  | nil =>
    have hc : climbed base [] = steps base := List.append_nil _
    rw [trail, hc]
    split
    · next hb =>
      rw [List.isEmpty_iff.mp hb]
      exact fun s hs => absurd hs List.not_mem_nil
    · refine ⟨⟨[], (List.append_nil _).symm, fun s hs => absurd hs List.not_mem_nil⟩, ?_⟩
      rcases h.base with rfl | rfl | ⟨rfl, -⟩
      · exact Or.inl (by simp)
      · exact Or.inl (by simp [steps_cons_separator])
      · exact Or.inl fun s hs => List.mem_singleton.mp hs
  | cons piece up ih =>
    have hup := ih h.tail
    by_cases hempty : piece = []
    · -- an empty piece is no step, and the trail leaves it out
      subst hempty
      have hc : climbed base ([] :: up) = climbed base up := by simp [climbed]
      rw [trail, if_pos (by rfl), hc]
      exact hup
    · rw [climbed_cons base hempty, trail]
      split
      · next hp =>
        obtain rfl : piece = here := by simpa [hempty] using hp
        exact hup.stay
      · -- the whole is a path of the trail, and its rung to the next is this piece
        have hs : steps (spelled base (piece :: up)) = climbed base up ++ [piece] :=
          (steps_spelled h).trans (climbed_cons base hempty up)
        rw [← hs]
        refine ⟨⟨[], (List.append_nil _).symm, fun s hs => absurd hs List.not_mem_nil⟩, ?_⟩
        show Ladder (steps (spelled base (piece :: up))) (trail base up)
        rw [hs]
        exact hup.ladder piece

/-- The pieces of a path after its base, last first. -/
def pieces (p : Path) : List Name := ((p.drop (base p).length).splitOn separator).reverse

/-- A path starts with its base. What follows a step that stays starts with a separator. -/
theorem base_append (p : Path) : base p ++ p.drop (base p).length = p ∧ (base p = [] ∨ base p = [separator] ∨
    base p = here ∧ (p.drop (base p).length = [] ∨ (p.drop (base p).length).head? = some separator)) := by
  rw [base]
  split
  · next h =>
    obtain ⟨q, rfl⟩ := List.head?_eq_some_iff.mp (by simpa [isAbsolute] using h : p.head? = some separator)
    exact ⟨rfl, Or.inr (Or.inl rfl)⟩
  · split
    · next h =>
      simp only [Bool.or_eq_true, decide_eq_true_eq] at h
      rcases h with rfl | h
      · exact ⟨rfl, Or.inr (Or.inr ⟨rfl, Or.inl rfl⟩)⟩
      · obtain ⟨q, rfl⟩ := List.isPrefixOf_iff_prefix.mp h
        exact ⟨rfl, Or.inr (Or.inr ⟨rfl, Or.inr rfl⟩)⟩
    · exact ⟨rfl, Or.inl rfl⟩

theorem spelled_pieces (p : Path) : spelled (base p) (pieces p) = p := by
  rw [spelled, pieces, List.reverse_reverse, List.intercalate_splitOn]
  exact (base_append p).1

theorem based_pieces (p : Path) : Based (base p) (pieces p) where
  base := by
    refine (base_append p).2.imp_right (Or.imp_right (And.imp_right fun hhead _ => ?_))
    rw [pieces, List.getLast?_reverse]
    rcases hhead with hnil | hhead
    · rw [hnil]
      rfl
    · obtain ⟨r, hr⟩ := List.head?_eq_some_iff.mp hhead
      have hsplit : (separator :: r).splitOn separator = [] :: r.splitOn separator :=
        List.splitOn_append_cons_self [] r
      rw [hr, hsplit]
      rfl
  piece q hq hs := by
    have hp := Text.forall_mem_splitOnPPrepend (by simp) (p.drop (base p).length) q (List.mem_reverse.mp hq)
    simpa using hp separator hs

theorem ancestors_isPrefix {p q : Path} (h : q ∈ ancestors p) : q ≠ [] ∧ q <+: p := by
  have hq : q ∈ trail (base p) (pieces p) := List.mem_of_mem_tail h
  have hpre := trail_isPrefix hq
  rwa [spelled_pieces] at hpre

/-- A path without a meaningless end: its last step does not stay, or it is nothing but a step that stays. -/
def Tidy (p : Path) : Prop := p.steps.getLast? ≠ some here ∨ p = here

theorem ladder_ancestors {p : Path} (h : Tidy p) : Ladder p.steps (ancestors p) := by
  rcases h with hlast | rfl
  · have htrail := trailed_trail (based_pieces p)
    rw [← steps_spelled (based_pieces p), spelled_pieces] at htrail
    have nil_of_stays {up stays : List Name} (hsteps : p.steps = up ++ stays) (hstays : ∀ s ∈ stays, s = here) :
        stays = [] := by
      refine Decidable.byContradiction fun hne => hlast ?_
      rw [hsteps, List.getLast?_append, List.getLast?_eq_some_getLast hne, Option.some_or,
        hstays _ (List.getLast_mem hne)]
    show Ladder p.steps (trail (base p) (pieces p)).tail
    cases hqs : trail (base p) (pieces p) with
    | nil =>
      rw [hqs] at htrail
      exact Or.inl htrail
    | cons q up =>
      rw [hqs] at htrail
      obtain ⟨⟨stays, hsteps, hstays⟩, hup⟩ := htrail
      rw [nil_of_stays hsteps hstays, List.append_nil] at hsteps
      rwa [hsteps]
  · exact Or.inl fun s hs => List.mem_singleton.mp hs

theorem tidy_of_mem_trail {base q : Path} {pieces : List Name} (h : Based base pieces)
    (hq : q ∈ trail base pieces) : Tidy q := by
  induction pieces with
  | nil =>
    rw [trail] at hq
    split at hq
    · exact absurd hq List.not_mem_nil
    · obtain rfl := List.mem_singleton.mp hq
      rcases h.base with rfl | rfl | ⟨rfl, -⟩
      · exact Or.inl (by simp)
      · exact Or.inl (by simp [steps_cons_separator])
      · exact Or.inr rfl
  | cons piece up ih =>
    rw [trail] at hq
    split at hq
    · exact ih h.tail hq
    · next hp =>
      simp only [Bool.or_eq_true, List.isEmpty_iff, decide_eq_true_eq, not_or] at hp
      rcases List.mem_cons.mp hq with rfl | hq
      · refine Or.inl ?_
        show (steps (spelled base (piece :: up))).getLast? ≠ some here
        rw [steps_spelled h, climbed_cons base hp.1, List.getLast?_concat]
        exact fun he => hp.2 (Option.some.inj he)
      · exact ih h.tail hq

theorem tidy_of_mem_ancestors {p q : Path} (h : q ∈ ancestors p) : Tidy q :=
  tidy_of_mem_trail (based_pieces p) (List.mem_of_mem_tail h)

/-- Where a path begins does not change when something is put below it. -/
theorem base_append_separator {p : Path} (h : p ≠ []) (q : Path) : base (p ++ separator :: q) = base p := by
  rw [base, base, isAbsolute_append h]
  split
  · rfl
  · -- a step that stays shows in the first two bytes, and a path of one byte is followed by a separator
    match p, h with
    | [b], _ =>
      by_cases hb : b = 0x2E
      · subst hb
        rfl
      · simp [here, List.isPrefixOf, hb, Ne.symm hb]
    | b :: c :: p, _ => simp [here, List.isPrefixOf]

theorem ancestors_of_trail {base : Path} {pieces : List Name} {q : Path} {up : List Path} (before : List Path)
    (h : Based base pieces) (hbase : spelled base pieces = [] ∨ Path.base (spelled base pieces) = base)
    (htrail : trail base pieces = before ++ q :: up) : ancestors q = up := by
  induction pieces generalizing before with
  | nil =>
    rw [trail] at htrail
    split at htrail
    · simp at htrail
    · next hne =>
      have hb : base = q ∧ up = [] := by
        cases before with
        | nil => simpa using htrail
        | cons _ _ => simp at htrail
      obtain ⟨rfl, rfl⟩ := hb
      rcases h.base with rfl | rfl | ⟨rfl, -⟩
      · simp at hne
      · decide
      · decide
  | cons piece rest ih =>
    have hrest : spelled base rest = [] ∨ Path.base (spelled base rest) = base := by
      by_cases hnil : rest = []
      · subst hnil
        rcases h.base with rfl | rfl | ⟨rfl, -⟩
        · exact Or.inl rfl
        · exact Or.inr (by decide)
        · exact Or.inr (by decide)
      · rw [spelled_cons base piece hnil] at hbase
        refine Decidable.or_iff_not_imp_left.mpr fun hne => ?_
        rw [← base_append_separator hne piece]
        exact hbase.resolve_left (by simp)
    rw [trail] at htrail
    split at htrail
    · exact ih before h.tail hrest htrail
    · next hpiece =>
      cases before with
      | nil =>
        obtain ⟨rfl, rfl⟩ := List.cons.inj htrail
        simp only [Bool.or_eq_true, List.isEmpty_iff, decide_eq_true_eq] at hpiece
        have hne : spelled base (piece :: rest) ≠ [] := spelled_ne_nil (fun he => hpiece (Or.inl he)) base rest
        have hpieces : pieces (spelled base (piece :: rest)) = piece :: rest := by
          rw [pieces, hbase.resolve_left hne, spelled, List.drop_left,
            List.splitOn_intercalate separator (fun p hp => h.piece p (List.mem_reverse.mp hp)) (by simp),
            List.reverse_reverse]
        show (trail (Path.base (spelled base (piece :: rest))) (pieces (spelled base (piece :: rest)))).tail = _
        rw [hpieces, hbase.resolve_left hne, trail, if_neg (by simpa using hpiece), List.tail_cons]
      | cons _ before => exact ih before h.tail hrest (List.cons.inj htrail).2

/-- The ancestors of the nearest ancestor are the rest of the ancestors. -/
theorem ancestors_of_cons {p q : Path} {up : List Path} (h : ancestors p = q :: up) : ancestors q = up := by
  have htail : (trail (base p) (pieces p)).tail = q :: up := h
  cases htrail : trail (base p) (pieces p) with
  | nil =>
    rw [htrail] at htail
    cases htail
  | cons p' rest =>
    rw [htrail, List.tail_cons] at htail
    refine ancestors_of_trail [p'] (based_pieces p) (Or.inr ?_) (htrail.trans (congrArg _ htail))
    rw [spelled_pieces]

/-- The parent of a path is its nearest ancestor; without one it is no path to speak of. -/
theorem parent?_cases (p : Path) : (∃ q up, parent? p = some q ∧ ancestors p = q :: up) ∨
    (parent? p = none ∨ parent? p = some []) ∧ ancestors p = [] := by
  rw [parent?]
  cases ancestors p with
  | cons q up => exact Or.inl ⟨q, up, rfl, rfl⟩
  | nil =>
    refine Or.inr ⟨?_, rfl⟩
    split
    · next h => exact absurd h (by simp)
    · split
      · exact Or.inl rfl
      · exact Or.inr rfl

end ObjectTables.Path
