import ObjectTables.Tool.Rehearsal
import ObjectTables.Proofs.Scratch.Claim
import ObjectTables.Proofs.Scratch.Record

/-! Sessions with scratch directories. What is done in a session is a list of events: claims are made, closed and
    dropped, and files are changed in the directories that are claimed. An event takes away only what lies at a claim
    that it makes or releases or what it says itself (`Ordered.kept_after`), so where the claims held at one time lie
    apart, each of them stays sound until it is released (`Ordered.after`). A release removes one directory, that of its
    claim (`Ordered.removals_eq`). -/

namespace ObjectTables

namespace ScratchSlots

variable {s : ScratchSlots} {slot : String} {c : ScratchClaim}

/-- No slot holds two claims. -/
def Distinct (s : ScratchSlots) : Prop := s.held.Pairwise fun a b => a.1 ≠ b.1

theorem mem_of_claim? (h : s.claim? slot = some c) : (slot, c) ∈ s.held := by
  obtain ⟨before, after, hheld, -⟩ := List.lookup_eq_some_iff.mp h
  rw [hheld]
  exact List.mem_append_right _ List.mem_cons_self

theorem ne_of_claim?_eq_none (h : s.claim? slot = none) {k : String × ScratchClaim} (hk : k ∈ s.held) : k.1 ≠ slot :=
  (bne_iff_ne.mp (List.lookup_eq_none_iff.mp h k hk)).symm

theorem mem_vacate {k : String × ScratchClaim} : k ∈ (s.vacate slot).held ↔ k ∈ s.held ∧ k.1 ≠ slot := by
  rw [vacate, List.mem_filter, bne_iff_ne]

theorem vacate_of_none (h : s.claim? slot = none) : s.vacate slot = s := by
  rw [vacate, List.filter_eq_self.mpr fun k hk => bne_iff_ne.mpr (ne_of_claim?_eq_none h hk)]

theorem claim?_vacate (s : ScratchSlots) (slot : String) : (s.vacate slot).claim? slot = none := by
  rw [claim?, List.lookup_eq_none_iff]
  intro k hk
  exact bne_iff_ne.mpr (mem_vacate.mp hk).2.symm

theorem claim?_of_mem (hd : s.Distinct) (h : (slot, c) ∈ s.held) : s.claim? slot = some c := by
  obtain ⟨before, after, hheld⟩ := List.append_of_mem h
  refine List.lookup_eq_some_iff.mpr ⟨before, after, hheld, fun k hk => ?_⟩
  rw [Distinct, hheld, List.pairwise_append] at hd
  exact bne_iff_ne.mpr (hd.2.2 k hk _ List.mem_cons_self).symm

/-- A slot that is vacated loses its claim, and no other is lost. -/
theorem perm_vacate (hd : s.Distinct) (h : s.claim? slot = some c) :
    s.held.Perm ((slot, c) :: (s.vacate slot).held) := by
  obtain ⟨before, after, hheld⟩ := List.append_of_mem (mem_of_claim? h)
  rw [Distinct, hheld, List.pairwise_append, List.pairwise_cons] at hd
  obtain ⟨-, ⟨hafter, -⟩, hbefore⟩ := hd
  have hvacate : (s.vacate slot).held = before ++ after := by
    rw [vacate, hheld, List.filter_append, List.filter_cons, if_neg (by simp),
      List.filter_eq_self.mpr fun k hk => bne_iff_ne.mpr (hbefore k hk _ List.mem_cons_self),
      List.filter_eq_self.mpr fun k hk => bne_iff_ne.mpr (hafter k hk).symm]
  rw [hvacate, hheld]
  exact List.perm_middle

end ScratchSlots

namespace Scratch

open FileTree

/-! ### Events -/

/-- Claims in use, and the files of the system. -/
structure Session where
  slots : ScratchSlots
  tree : FileTree

/-- Something that is done in a session. -/
inductive Event where
  | reset (slot : String) (p : Path)
  | close (slot : String)
  | drop (slot : String)
  | write (p : Path) (content : Bytes)
  | remove (p : Path)
  | makeDirectory (p : Path)

/-- The slot that an event is about. -/
def Event.slot? : Event → Option String
  | reset slot _ | close slot | drop slot => some slot
  | write .. | remove _ | makeDirectory _ => none

/-- Neither of two locations lies above the other, and they are different. -/
def Apart (l m : Location) : Prop := ¬ l <+: m ∧ ¬ m <+: l

instance (l m : Location) : Decidable (Apart l m) := inferInstanceAs (Decidable (_ ∧ _))

namespace Session

/-- The session after an event, whether it succeeded or not. -/
def after (directory : Location) (s : Session) : Event → Session
  | .reset slot p => ⟨(s.slots.fill directory slot p s.tree).2.1, (s.slots.fill directory slot p s.tree).2.2⟩
  | .close slot => ⟨(s.slots.close directory slot s.tree).2.1, (s.slots.close directory slot s.tree).2.2⟩
  | .drop slot => ⟨(s.slots.drop directory slot s.tree).2.1, (s.slots.drop directory slot s.tree).2.2⟩
  | .write p content => ⟨s.slots, (s.tree.write directory p content).toOption.getD s.tree⟩
  | .remove p => ⟨s.slots, (Rehearsal.Deed.remove p).apply directory s.tree⟩
  | .makeDirectory p => ⟨s.slots, (s.tree.createDirectory directory p).toOption.getD s.tree⟩

/-- The claim that an event makes. -/
def claimed? (directory : Location) (s : Session) : Event → Option ScratchClaim
  | .reset slot p => (s.slots.fill directory slot p s.tree).1.toOption
  | _ => none

/-- The claim that an event releases. -/
def released? (directory : Location) (s : Session) : Event → Option ScratchClaim
  | .reset slot p => if (s.slots.fill directory slot p s.tree).1.isOk then s.slots.claim? slot else none
  | .close slot | .drop slot => s.slots.claim? slot
  | _ => none

/-- The scratch directories that an event removes for claims, in order: what a record shows that is kept of it. -/
def removals (directory : Location) (s : Session) : Event → List Path
  | .reset slot p => (s.slots.fill directory slot p (⟨s.tree, []⟩ : Recorded)).2.2.removals
  | .close slot => (s.slots.close directory slot (⟨s.tree, []⟩ : Recorded)).2.2.removals
  | .drop slot => (s.slots.drop directory slot (⟨s.tree, []⟩ : Recorded)).2.2.removals
  | .write .. | .remove _ | .makeDirectory _ => []

/-- What can be done: claims are made by plain paths, where they lie apart from those that are held at the time, and
    files are written and removed where it is claimed. -/
def Admits (directory : Location) (s : Session) : Event → Prop
  | .reset slot p => Plain p ∧ ((s.slots.fill directory slot p s.tree).1.isOk = true →
      ∀ k ∈ s.slots.held, Apart (target directory k.2.path) (target directory p))
  | .write p _ => ∃ k ∈ s.slots.held,
      target directory k.2.path <+: target directory p ∧ target directory k.2.path ≠ target directory p
  | .remove p => ∃ k ∈ s.slots.held, target directory k.2.path <+: target directory p
  | .close _ | .drop _ | .makeDirectory _ => True

instance (directory : Location) (s : Session) : (event : Event) → Decidable (s.Admits directory event)
  | .reset .. => inferInstanceAs (Decidable (_ ∧ _))
  | .write .. | .remove _ => inferInstanceAs (Decidable (∃ k ∈ s.slots.held, _))
  | .close _ | .drop _ | .makeDirectory _ => inferInstanceAs (Decidable True)

end Session

/-- The locations at which an event takes something away by what it says itself. -/
def Event.Alters (directory : Location) : Event → Location → Prop
  | write p _, l => l = target directory p
  | remove p, l => target directory p <+: l
  | _, _ => False

/-- The locations at which an event may leave a new directory. -/
def Event.adds (directory : Location) : Event → List Location
  | reset _ p => target directory p :: way directory p
  | makeDirectory p => [target directory p]
  | _ => []

/-- The locations at which an event may take something away. -/
def Session.Takes (directory : Location) (s : Session) (event : Event) (l : Location) : Prop :=
  event.Alters directory l ∨
    ∃ c, (s.claimed? directory event = some c ∨ s.released? directory event = some c) ∧ target directory c.path <+: l

/-- A tree has lost the directory of a claim, if it is one, and nothing else. -/
structure Lost (directory : Location) (claim? : Option ScratchClaim) (t t' : FileTree) : Prop where
  gone : ∀ c, claim? = some c → ∀ l, target directory c.path <+: l → t'.get? l = none
  rest : ∀ l, (∀ c, claim? = some c → ¬ target directory c.path <+: l) → t'.get? l = t.get? l

/-- The claims that are held are sound and lie apart, and no slot holds two of them. -/
structure Ordered (directory : Location) (s : Session) : Prop where
  sound : ∀ k ∈ s.slots.held, Sound directory s.tree k.2
  apart : s.slots.held.Pairwise fun a b =>
    a.1 ≠ b.1 ∧ Apart (target directory a.2.path) (target directory b.2.path)

variable {directory l m : Location} {s : Session} {event : Event} {slot : String} {p : Path} {c : ScratchClaim}
  {t t' : FileTree} {k k' : String × ScratchClaim}

section Reset

variable {slots : ScratchSlots} {f : Failure}

theorem claimed?_of_ok (h : s.slots.fill directory slot p s.tree = (.ok c, slots, t)) :
    s.claimed? directory (.reset slot p) = some c := by
  rw [Session.claimed?, h]
  rfl

theorem claimed?_of_error (h : s.slots.fill directory slot p s.tree = (.error f, slots, t)) :
    s.claimed? directory (.reset slot p) = none := by
  rw [Session.claimed?, h]
  rfl

theorem released?_of_ok (h : s.slots.fill directory slot p s.tree = (.ok c, slots, t)) :
    s.released? directory (.reset slot p) = s.slots.claim? slot := by
  rw [Session.released?, h]
  rfl

theorem released?_of_error (h : s.slots.fill directory slot p s.tree = (.error f, slots, t)) :
    s.released? directory (.reset slot p) = none := by
  rw [Session.released?, h]
  rfl

end Reset

theorem Apart.symm (h : Apart l m) : Apart m l := ⟨h.2, h.1⟩

theorem Apart.not_both {q : Location} (h : Apart l m) (hl : l <+: q) : ¬ m <+: q := by
  intro hm
  rcases List.prefix_or_prefix_of_prefix hl hm with hpre | hpre
  · exact h.1 hpre
  · exact h.2 hpre

theorem Apart.of_isPrefix {q : Location} (h : Apart l m) (hq : l <+: q) : ¬ q <+: m :=
  fun hm => h.1 (hq.trans hm)

/-! ### Releases -/

theorem Lost.of_none (t : FileTree) : Lost directory none t t := ⟨fun _ hc => (nomatch hc), fun _ _ => rfl⟩

theorem Lost.of_erased (h : Erased (target directory c.path) t t') : Lost directory (some c) t t' where
  gone c' hc l hl := by
    cases hc
    rw [h, if_pos hl]
  rest l hl := by rw [h, if_neg (hl c rfl)]

theorem Lost.kept {claim? : Option ScratchClaim} (h : Lost directory claim? t t') (ls : List Location) :
    Kept (fun l => ∀ c, claim? = some c → ¬ target directory c.path <+: l) ls t t' := fun l hl => Or.inl (h.rest l hl)

theorem lost_of_discard (h : ∀ c, s.slots.claim? slot = some c → Sound directory t c) :
    Lost directory (s.slots.claim? slot) t ((s.slots.claim? slot).elim t fun old => (old.discard directory t).2) := by
  cases hc : s.slots.claim? slot with
  | none => exact Lost.of_none t
  | some c =>
    obtain ⟨t', -, hdiscard, herased⟩ := (h c hc).release
    rw [Option.elim_some, hdiscard]
    exact Lost.of_erased herased

namespace Ordered

theorem distinct (h : Ordered directory s) : s.slots.Distinct := h.apart.imp And.left

theorem sound_of_claim? (h : Ordered directory s) (hc : s.slots.claim? slot = some c) : Sound directory s.tree c :=
  h.sound _ (ScratchSlots.mem_of_claim? hc)

theorem apart_of_ne (h : Ordered directory s) (hk : k ∈ s.slots.held) (hk' : k' ∈ s.slots.held) (hne : k.1 ≠ k'.1) :
    Apart (target directory k.2.path) (target directory k'.2.path) := by
  obtain ⟨before, after, hheld⟩ := List.append_of_mem hk
  have hpairs := h.apart
  rw [hheld, List.pairwise_append, List.pairwise_cons] at hpairs
  obtain ⟨-, ⟨hafter, -⟩, hbefore⟩ := hpairs
  rw [hheld] at hk'
  rcases List.mem_append.mp hk' with hk' | hk'
  · exact (hbefore k' hk' k List.mem_cons_self).2.symm
  · rcases List.mem_cons.mp hk' with rfl | hk'
    · exact absurd rfl hne
    · exact (hafter k' hk').2

/-- A claim that is held is one with another, or lies apart from it. -/
theorem eq_or_apart (h : Ordered directory s) (hk : k ∈ s.slots.held) (hk' : k' ∈ s.slots.held) :
    target directory k.2.path = target directory k'.2.path ∨
      Apart (target directory k.2.path) (target directory k'.2.path) := by
  by_cases heq : k.1 = k'.1
  · have hc := ScratchSlots.claim?_of_mem h.distinct hk
    rw [heq, ScratchSlots.claim?_of_mem h.distinct hk'] at hc
    rw [Option.some.inj hc]
    exact Or.inl rfl
  · exact Or.inr (h.apart_of_ne hk hk' heq)

/-! ### What an event comes to -/

/-- A slot is vacated in the same way whether its claim is closed or dropped, and closing never fails. -/
theorem release_eq (h : Ordered directory s) (slot : String) :
    ∃ t, Lost directory (s.slots.claim? slot) s.tree t ∧
      s.slots.close directory slot s.tree =
        ((s.slots.claim? slot).map fun _ => .ok (), s.slots.vacate slot, t) ∧
      s.slots.drop directory slot s.tree = ((s.slots.claim? slot).isSome, s.slots.vacate slot, t) := by
  rw [ScratchSlots.close, ScratchSlots.drop]
  cases hc : s.slots.claim? slot with
  | none =>
    rw [ScratchSlots.vacate_of_none hc]
    exact ⟨s.tree, Lost.of_none s.tree, rfl, rfl⟩
  | some c =>
    obtain ⟨t, hclose, hdiscard, herased⟩ := (h.sound_of_claim? hc).release
    refine ⟨t, Lost.of_erased herased, ?_, ?_⟩
    · show (some ((c.close directory).run s.tree).1, _, ((c.close directory).run s.tree).2) = _
      rw [hclose, Option.map_some]
    · show (true, _, (c.discard directory s.tree).2) = _
      rw [hdiscard, Option.isSome_some]

/-- A reset fails and leaves the claims as they are, or makes a claim and releases the one that its slot held. -/
theorem fill_cases (h : Ordered directory s) (ha : s.Admits directory (.reset slot p)) :
    (∃ f t, s.slots.fill directory slot p s.tree = (.error f, s.slots, t) ∧
      Kept Everywhere (target directory p :: way directory p) s.tree t) ∨
    ∃ t₁ t, s.slots.fill directory slot p s.tree =
        (.ok ⟨p, false⟩, ⟨(slot, ⟨p, false⟩) :: (s.slots.vacate slot).held⟩, t) ∧
      (claim directory p).run s.tree = (.ok ⟨p, false⟩, t₁) ∧ Lost directory (s.slots.claim? slot) t₁ t ∧
      ∀ k ∈ s.slots.held, Apart (target directory k.2.path) (target directory p) := by
  obtain ⟨hplain, hapart⟩ := ha
  rcases hclaim : (ScratchHost.claim directory p).run s.tree with ⟨f | c, t₁⟩
  · refine Or.inl ⟨f, t₁, ?_, claim_of_error hplain hclaim⟩
    rw [ScratchSlots.fill, hclaim]
  · obtain ⟨rfl, -⟩ := claim_of_ok hplain hclaim
    have hfill : s.slots.fill directory slot p s.tree =
        (.ok ⟨p, false⟩, ⟨(slot, ⟨p, false⟩) :: (s.slots.vacate slot).held⟩,
          (s.slots.claim? slot).elim t₁ fun old => (old.discard directory t₁).2) := by
      rw [ScratchSlots.fill, hclaim]
      cases s.slots.claim? slot with
      | none => rfl
      | some old => rfl
    have hapart := hapart (by rw [hfill]; rfl)
    refine Or.inr ⟨t₁, _, hfill, rfl, lost_of_discard fun old hold => ?_, hapart⟩
    -- the claim that the slot held is sound when its turn comes
    have hold := ScratchSlots.mem_of_claim? hold
    obtain ⟨up, n, hends⟩ := hplain.ends
    have hkept := (keeps_claim directory hends).of_run hclaim
    have hsound := h.sound _ hold
    have hbelow : ∀ q, q <+: target directory old.path → ¬ target directory p <+: q := fun q hq hpre =>
      (hapart _ hold).2 (hpre.trans hq)
    exact hsound.kept hkept (fun q hq => hbelow q (hsound.plain.isPrefix hq))
      (hkept.free (hbelow _ List.prefix_rfl) hsound.free)

/-- For the claim that an event releases, its directory is removed once, and for no other claim. -/
theorem removals_eq (h : Ordered directory s) (event : Event) :
    s.removals directory event = (s.released? directory event).toList.map ScratchClaim.path := by
  have due (slot : String) (c : ScratchClaim) (hc : s.slots.claim? slot = some c) : c.released = false :=
    (h.sound_of_claim? hc).due
  cases event with
  | reset slot p =>
    rw [Session.removals, ScratchSlots.fill_recorded (due slot), Session.released?]
    split <;> rfl
  | close slot =>
    rw [Session.removals, ScratchSlots.close_recorded]
    rfl
  | drop slot =>
    rw [Session.removals, ScratchSlots.drop_recorded (due slot)]
    rfl
  | _ => rfl

/-! ### What an event takes away -/

theorem apart_of_claimed (h : Ordered directory s) (ha : s.Admits directory event) (hk : k ∈ s.slots.held)
    (hc : s.claimed? directory event = some c) : Apart (target directory c.path) (target directory k.2.path) := by
  cases event with
  | reset slot p =>
    rcases h.fill_cases ha with ⟨f, t, hfill, -⟩ | ⟨t₁, t, hfill, -, -, hapart⟩
    · rw [claimed?_of_error hfill] at hc
      cases hc
    · rw [claimed?_of_ok hfill] at hc
      cases hc
      exact (hapart k hk).symm
  | _ => cases hc

theorem slot_of_released (hc : s.released? directory event = some c) :
    ∃ slot, event.slot? = some slot ∧ s.slots.claim? slot = some c := by
  cases event with
  | reset slot p =>
    rw [Session.released?] at hc
    split at hc
    · exact ⟨slot, rfl, hc⟩
    · cases hc
  | close slot | drop slot => exact ⟨slot, rfl, hc⟩
  | _ => cases hc

/-- Whether an event makes or releases a claim, this one lies apart from those that it leaves in their slots. -/
theorem apart_of_event (h : Ordered directory s) (ha : s.Admits directory event) (hk : k ∈ s.slots.held)
    (hkeep : ∀ c, s.released? directory event = some c → event.slot? ≠ some k.1)
    (hc : s.claimed? directory event = some c ∨ s.released? directory event = some c) :
    Apart (target directory c.path) (target directory k.2.path) := by
  rcases hc with hc | hc
  · exact h.apart_of_claimed ha hk hc
  · obtain ⟨slot, hslot, hclaim⟩ := slot_of_released hc
    refine h.apart_of_ne (ScratchSlots.mem_of_claim? hclaim) hk fun heq => hkeep c hc ?_
    rw [hslot, ← heq]

/-- An event takes away nothing above a claim that it leaves in its slot. -/
theorem takes_below (h : Ordered directory s) (ha : s.Admits directory event) (hk : k ∈ s.slots.held)
    (hkeep : ∀ c, s.released? directory event = some c → event.slot? ≠ some k.1) (hl : s.Takes directory event l) :
    target directory k.2.path <+: l ∨ ¬ l <+: target directory k.2.path := by
  rcases hl with halters | ⟨c, hc, hpre⟩
  · obtain ⟨k', hk', hpre⟩ : ∃ k' ∈ s.slots.held, target directory k'.2.path <+: l := by
      cases event with
      | write p x =>
        obtain ⟨k', hk', hpre, -⟩ := ha
        exact ⟨k', hk', halters ▸ hpre⟩
      | remove p =>
        obtain ⟨k', hk', hpre⟩ := ha
        exact ⟨k', hk', hpre.trans halters⟩
      | _ => exact halters.elim
    rcases h.eq_or_apart hk' hk with heq | hapart
    · exact Or.inl (heq ▸ hpre)
    · exact Or.inr (hapart.of_isPrefix hpre)
  · exact Or.inr ((h.apart_of_event ha hk hkeep hc).of_isPrefix hpre)

theorem thinned_remove (directory : Location) (p : Path) (t : FileTree) :
    Thinned (target directory p) t ((Rehearsal.Deed.remove p).apply directory t) := by
  show Thinned (target directory p) t ((if t.reachesDirectory directory p = true then removeAll directory p
    else Change.make (·.removeFile directory p)).run t).2
  split
  · exact thins_removeAll directory p t
  · exact Change.keeps_make (Thinned.refl _) (fun _ _ => thins_removeFile) t

/-- An event changes nothing but what it takes away, apart from directories that it adds. -/
theorem kept_after (h : Ordered directory s) (ha : s.Admits directory event) :
    Kept (¬ s.Takes directory event ·) (event.adds directory) s.tree (s.after directory event).tree := by
  have kept_lost {claim? : Option ScratchClaim} {ls : List Location} {t t' : FileTree}
      (hlost : Lost directory claim? t t') (hclaim : ∀ c, claim? = some c → s.released? directory event = some c) :
      Kept (¬ s.Takes directory event ·) ls t t' :=
    (hlost.kept ls).mono (fun l hl c hc hpre => hl (Or.inr ⟨c, Or.inr (hclaim c hc), hpre⟩)) fun _ hl => hl
  cases event with
  | reset slot p =>
    rcases h.fill_cases ha with ⟨f, t, hfill, hkept⟩ | ⟨t₁, t, hfill, hclaim, hlost, -⟩
    · rw [Session.after, hfill]
      exact hkept.mono (fun _ _ => trivial) fun _ hl => hl
    · obtain ⟨up, n, hends⟩ := ha.1.ends
      have hkept := (keeps_claim directory hends).of_run hclaim
      rw [Session.after, hfill]
      refine (hkept.mono (fun l hl hpre => hl (Or.inr ⟨⟨p, false⟩, Or.inl (claimed?_of_ok hfill), hpre⟩))
        fun _ => List.mem_cons_of_mem _).trans (kept_lost hlost fun c hc => ?_)
      rw [released?_of_ok hfill, hc]
  | close slot | drop slot =>
    obtain ⟨t, hlost, hclose, hdrop⟩ := h.release_eq slot
    simp only [Session.after, hclose, hdrop]
    exact kept_lost hlost fun _ hc => hc
  | write p x =>
    rw [Session.after]
    cases hwrite : s.tree.write directory p x with
    | error e => exact Kept.refl _ _ _
    | ok t =>
      intro l hl
      refine Or.inl ?_
      show t.get? l = s.tree.get? l
      have hne : l ≠ target directory p := fun heq => hl (Or.inl heq)
      rw [get?_of_write hwrite, if_neg hne]
  | remove p => exact (thinned_remove directory p s.tree).kept.mono (fun l hl hpre => hl (Or.inl hpre)) (by simp)
  | makeDirectory p =>
    rw [Session.after]
    cases hcreate : s.tree.createDirectory directory p with
    | error e => exact Kept.refl _ _ _
    | ok t => exact (kept_of_createDirectory hcreate).mono (fun _ _ => trivial) fun _ hl => hl

/-! ### What an event leaves -/

/-- A claim that an event leaves in its slot stays sound. -/
theorem sound_after (h : Ordered directory s) (ha : s.Admits directory event) (hk : k ∈ s.slots.held)
    (hkeep : ∀ c, s.released? directory event = some c → event.slot? ≠ some k.1) :
    Sound directory (s.after directory event).tree k.2 := by
  have hsound := h.sound k hk
  have hkept := h.kept_after ha
  refine hsound.kept hkept (fun q hq htakes => ?_) ?_
  · rcases h.takes_below ha hk hkeep htakes with hpre | hpre
    · exact hsound.plain.above hq hpre
    · exact hpre (hsound.plain.isPrefix hq)
  · have hfree (halters : ¬ event.Alters directory (target directory k.2.path)) :
        (s.after directory event).tree.Free (target directory k.2.path) := by
      refine hkept.free ?_ hsound.free
      rintro (hl | ⟨c, hc, hpre⟩)
      · exact halters hl
      · exact (h.apart_of_event ha hk hkeep hc).1 hpre
    cases event with
    | remove p => exact (thinned_remove directory p s.tree).free hsound.free
    | write p x =>
      -- a file is written strictly below a claim, so not at one
      refine hfree fun heq => ?_
      obtain ⟨k', hk', hpre, hne⟩ := ha
      rw [← show target directory k.2.path = target directory p from heq] at hpre hne
      rcases h.eq_or_apart hk' hk with heq | hapart
      · exact hne heq
      · exact hapart.1 hpre
    | _ => exact hfree id

/-- What can be done leaves the claims in order. -/
theorem after (h : Ordered directory s) (ha : s.Admits directory event) :
    Ordered directory (s.after directory event) := by
  have hsound (k : String × ScratchClaim) (hk : k ∈ s.slots.held) := h.sound_after ha hk
  cases event with
  | reset slot p =>
    rw [Session.after] at hsound ⊢
    rcases h.fill_cases ha with ⟨f, t, hfill, -⟩ | ⟨t₁, t, hfill, hclaim, hlost, hapart⟩
    · rw [hfill] at hsound ⊢
      refine ⟨fun k hk => hsound k hk fun c hc => ?_, h.apart⟩
      rw [released?_of_error hfill] at hc
      cases hc
    · rw [hfill] at hsound ⊢
      obtain ⟨-, hnew, -⟩ := claim_of_ok ha.1 hclaim
      have hclear : ∀ q, q <+: target directory p →
          ∀ c, s.slots.claim? slot = some c → ¬ target directory c.path <+: q := fun q hq c hc hpre =>
        (hapart _ (ScratchSlots.mem_of_claim? hc)).1 (hpre.trans hq)
      refine ⟨List.forall_mem_cons.mpr ⟨?_, fun k hk => ?_⟩, List.pairwise_cons.mpr ⟨fun k hk => ?_, ?_⟩⟩
      · exact hnew.kept (hlost.kept []) (fun q hq => hclear q (ha.1.isPrefix hq))
          ((hlost.kept []).free (hclear _ List.prefix_rfl) hnew.free)
      · obtain ⟨hk, hslot⟩ := ScratchSlots.mem_vacate.mp hk
        exact hsound k hk fun _ _ heq => hslot (Option.some.inj heq).symm
      · obtain ⟨hk, hslot⟩ := ScratchSlots.mem_vacate.mp hk
        exact ⟨hslot.symm, (hapart k hk).symm⟩
      · exact h.apart.filter _
  | close slot | drop slot =>
    obtain ⟨t, -, hclose, hdrop⟩ := h.release_eq slot
    simp only [Session.after, hclose, hdrop] at hsound ⊢
    refine ⟨fun k hk => ?_, h.apart.filter _⟩
    obtain ⟨hk, hslot⟩ := ScratchSlots.mem_vacate.mp hk
    exact hsound k hk fun _ _ heq => hslot (Option.some.inj heq).symm
  | _ => exact ⟨fun k hk => hsound k hk fun _ _ => nofun, h.apart⟩

end Ordered

end Scratch

end ObjectTables
