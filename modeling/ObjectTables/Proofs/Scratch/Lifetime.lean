import ObjectTables.Proofs.Scratch.Session
import ObjectTables.Proofs.Tool.Rehearsal

/-! The lives of scratch directories, over whole sessions. A claim that is made is held until it is released, and is
    released once (`claimed_perm`), by one removal of its directory (`removed_eq`). While it is held, nothing that is
    done with other claims touches its directory (`steady_run`), and no session takes away anything but at the claims
    that it holds or makes (`spares_run`). So it is after every session that starts without claims
    (`session_reliable`). -/

namespace ObjectTables.Scratch

open FileTree

/-! ### Sessions -/

namespace Session

/-- The session without claims. -/
def start (t : FileTree) : Session := ⟨.empty, t⟩

/-- The session after some events. -/
def run (directory : Location) (s : Session) (events : List Event) : Session := events.foldl (·.after directory) s

/-- Some events can be done, each when its turn comes. -/
def AdmitsAll (directory : Location) (s : Session) : List Event → Prop
  | [] => True
  | event :: events => s.Admits directory event ∧ (s.after directory event).AdmitsAll directory events

instance decidableAdmitsAll (directory : Location) (s : Session) :
    (events : List Event) → Decidable (s.AdmitsAll directory events)
  | [] => inferInstanceAs (Decidable True)
  | event :: events =>
    have := decidableAdmitsAll directory (s.after directory event) events
    inferInstanceAs (Decidable (_ ∧ _))

/-- The claims that some events make. -/
def claimed (directory : Location) (s : Session) : List Event → List ScratchClaim
  | [] => []
  | event :: events => (s.claimed? directory event).toList ++ (s.after directory event).claimed directory events

/-- The claims that some events release. -/
def released (directory : Location) (s : Session) : List Event → List ScratchClaim
  | [] => []
  | event :: events => (s.released? directory event).toList ++ (s.after directory event).released directory events

/-- The scratch directories that some events remove for claims, in order. -/
def removed (directory : Location) (s : Session) : List Event → List Path
  | [] => []
  | event :: events => s.removals directory event ++ (s.after directory event).removed directory events

/-- The claims that are held. -/
def claims (s : Session) : List ScratchClaim := s.slots.held.map Prod.snd

end Session

/-- An event that is not about a slot, and neither writes nor removes anything at the claim that the slot holds. -/
def Event.Respects (directory : Location) (slot : String) (c : ScratchClaim) : Event → Prop
  | reset other _ | close other | drop other => other ≠ slot
  | write p _ | remove p => ¬ target directory c.path <+: target directory p
  | makeDirectory _ => True

/-- A claim is over: nothing is where its path leads, and the claims that are held lie apart from there. -/
structure Over (directory : Location) (c : ScratchClaim) (slots : ScratchSlots) (t : FileTree) : Prop where
  absent : t.reaches directory c.path = false
  nothing : ∀ l, target directory c.path <+: l → t.get? l = none
  clear : ∀ k ∈ slots.held, Apart (target directory k.2.path) (target directory c.path)

/-- What can be relied on in a session, whatever is done next. -/
structure Reliable (directory : Location) (s : Session) : Prop where
  /-- A reset that succeeds leaves an empty directory, and is the end of the claim that its slot held. -/
  claims : ∀ {slot p c slots t}, s.Admits directory (.reset slot p) →
    s.slots.fill directory slot p s.tree = (.ok c, slots, t) →
      c = ⟨p, false⟩ ∧ slots.claim? slot = some c ∧ t.reachesDirectory directory p = true ∧
      (∀ l, target directory p <+: l → l ≠ target directory p → t.get? l = none) ∧
      ∀ old, s.slots.claim? slot = some old → Over directory old slots t
  /-- A reset that fails makes no claim and takes nothing away. -/
  refuses : ∀ {slot p f slots t}, s.Admits directory (.reset slot p) →
    s.slots.fill directory slot p s.tree = (.error f, slots, t) →
      slots = s.slots ∧ ∀ l e, s.tree.get? l = some e → t.get? l = some e
  /-- A claim that is held can be closed, and that it is closed or dropped is its end. -/
  releases : ∀ {slot c}, s.slots.claim? slot = some c → ∃ slots t,
    s.slots.close directory slot s.tree = (some (.ok ()), slots, t) ∧
    s.slots.drop directory slot s.tree = (true, slots, t) ∧ slots.claim? slot = none ∧ Over directory c slots t
  /-- For the claim that an event releases, its directory is removed once, and for no other claim. -/
  once : ∀ event, s.removals directory event = (s.released? directory event).toList.map ScratchClaim.path
  /-- A slot without a claim has nothing to release. -/
  vacant : ∀ {slot}, s.slots.claim? slot = none →
    s.slots.close directory slot s.tree = (none, s.slots, s.tree) ∧
    s.slots.drop directory slot s.tree = (false, s.slots, s.tree)
  /-- Whatever is done with other claims, a claim stays held and its directory stays with all that is in it. -/
  steady : ∀ {events slot c}, s.AdmitsAll directory events → s.slots.claim? slot = some c →
    (∀ event ∈ events, event.Respects directory slot c) →
      (s.run directory events).slots.claim? slot = some c ∧
      (s.tree.reachesDirectory directory c.path = true →
        (s.run directory events).tree.reachesDirectory directory c.path = true) ∧
      Kept (target directory c.path <+: ·) (events.flatMap (·.adds directory)) s.tree (s.run directory events).tree
  /-- Nothing is taken away or changed but at claims that are held or made. -/
  spares : ∀ {events}, s.AdmitsAll directory events → ∀ l e, s.tree.get? l = some e →
    (∀ c ∈ s.claims ++ s.claimed directory events, ¬ target directory c.path <+: l) →
      (s.run directory events).tree.get? l = some e

variable {directory l : Location} {s : Session} {event : Event} {events : List Event} {slot : String} {c : ScratchClaim}
  {t t' : FileTree} {k : String × ScratchClaim}

namespace Ordered

theorem start (directory : Location) (t : FileTree) : Ordered directory (.start t) :=
  ⟨fun _ hk => absurd hk List.not_mem_nil, List.Pairwise.nil⟩

theorem run (h : Ordered directory s) (ha : s.AdmitsAll directory events) :
    Ordered directory (s.run directory events) := by
  induction events generalizing s with
  | nil => exact h
  | cons event events ih => exact ih (h.after ha.1) ha.2

/-! ### The ends of claims -/

theorem over_of_lost (h : Ordered directory s) (hc : s.slots.claim? slot = some c)
    (hlost : Lost directory (s.slots.claim? slot) t t') : Over directory c (s.slots.vacate slot) t' where
  absent := not_reaches_of_none (h.sound_of_claim? hc).plain (hlost.gone c hc _ List.prefix_rfl)
  nothing := hlost.gone c hc
  clear k hk := by
    obtain ⟨hk, hslot⟩ := ScratchSlots.mem_vacate.mp hk
    exact h.apart_of_ne hk (ScratchSlots.mem_of_claim? hc) hslot

theorem releases (h : Ordered directory s) (hc : s.slots.claim? slot = some c) : ∃ slots t,
    s.slots.close directory slot s.tree = (some (.ok ()), slots, t) ∧
    s.slots.drop directory slot s.tree = (true, slots, t) ∧ slots.claim? slot = none ∧ Over directory c slots t := by
  obtain ⟨t, hlost, hclose, hdrop⟩ := h.release_eq slot
  have hover := h.over_of_lost hc hlost
  rw [hc] at hclose hdrop
  exact ⟨s.slots.vacate slot, t, hclose, hdrop, ScratchSlots.claim?_vacate _ _, hover⟩

theorem claims {p : Path} {slots : ScratchSlots} (h : Ordered directory s)
    (ha : s.Admits directory (.reset slot p)) (hfill : s.slots.fill directory slot p s.tree = (.ok c, slots, t)) :
    c = ⟨p, false⟩ ∧ slots.claim? slot = some c ∧ t.reachesDirectory directory p = true ∧
      (∀ l, target directory p <+: l → l ≠ target directory p → t.get? l = none) ∧
      ∀ old, s.slots.claim? slot = some old → Over directory old slots t := by
  rcases h.fill_cases ha with ⟨f, t', hfill', -⟩ | ⟨t₁, t', hfill', hclaim, hlost, hapart⟩
  · rw [hfill'] at hfill
    cases hfill
  rw [hfill'] at hfill
  cases hfill
  obtain ⟨-, hsound, hdir, hempty⟩ := claim_of_ok ha.1 hclaim
  -- the claim that the slot held lies apart, so its release leaves the new directory alone
  have hclear (l : Location) (hl : l <+: target directory p ∨ target directory p <+: l) :
      t.get? l = t₁.get? l := by
    refine hlost.rest l fun old hold hpre => ?_
    have hold := hapart _ (ScratchSlots.mem_of_claim? hold)
    rcases hl with hl | hl
    · exact hold.1 (hpre.trans hl)
    · exact hold.not_both hpre hl
  refine ⟨rfl, List.lookup_cons_self, reachesDirectory_of hsound.fits (fun q hq => ?_) ?_, fun l hl hne => ?_,
    fun old hold => ?_⟩
  · rw [hclear q (Or.inl (ha.1.isPrefix hq)), hsound.way q hq]
  · rw [hclear _ (Or.inl List.prefix_rfl), hdir]
  · rw [hclear l (Or.inr hl), hempty l hl hne]
  · have hover := h.over_of_lost hold hlost
    exact ⟨hover.absent, hover.nothing, List.forall_mem_cons.mpr
      ⟨(hapart _ (ScratchSlots.mem_of_claim? hold)).symm, hover.clear⟩⟩

theorem refuses {p : Path} {f : Failure} {slots : ScratchSlots} (h : Ordered directory s)
    (ha : s.Admits directory (.reset slot p)) (hfill : s.slots.fill directory slot p s.tree = (.error f, slots, t)) :
    slots = s.slots ∧ ∀ l e, s.tree.get? l = some e → t.get? l = some e := by
  rcases h.fill_cases ha with ⟨f', t', hfill', hkept⟩ | ⟨t₁, t', hfill', -⟩
  · rw [hfill'] at hfill
    cases hfill
    exact ⟨rfl, fun l e hl => hkept.get? trivial hl⟩
  · rw [hfill'] at hfill
    cases hfill

theorem vacant (s : Session) (directory : Location) (hc : s.slots.claim? slot = none) :
    s.slots.close directory slot s.tree = (none, s.slots, s.tree) ∧
    s.slots.drop directory slot s.tree = (false, s.slots, s.tree) := by
  rw [ScratchSlots.close, ScratchSlots.drop, hc]
  exact ⟨rfl, rfl⟩

/-! ### Conservation -/

/-- The claims that are held and the one that is made are those that are held afterwards and the one that is
    released. -/
theorem claimed?_perm (h : Ordered directory s) (ha : s.Admits directory event) :
    ((s.claimed? directory event).toList ++ s.claims).Perm
      ((s.released? directory event).toList ++ (s.after directory event).claims) := by
  have perm_vacate (slot : String) :
      s.claims.Perm ((s.slots.claim? slot).toList ++ (s.slots.vacate slot).held.map Prod.snd) := by
    cases hc : s.slots.claim? slot with
    | none =>
      rw [ScratchSlots.vacate_of_none hc]
      exact List.Perm.refl _
    | some c => exact (ScratchSlots.perm_vacate h.distinct hc).map Prod.snd
  cases event with
  | reset slot p =>
    rw [Session.after]
    rcases h.fill_cases ha with ⟨f, t, hfill, -⟩ | ⟨t₁, t, hfill, -⟩
    · rw [claimed?_of_error hfill, released?_of_error hfill, hfill]
      exact List.Perm.refl _
    · rw [claimed?_of_ok hfill, released?_of_ok hfill, hfill]
      exact ((perm_vacate slot).cons _).trans List.perm_middle.symm
  | close slot | drop slot =>
    obtain ⟨t, -, hclose, hdrop⟩ := h.release_eq slot
    simp only [Session.after, hclose, hdrop]
    exact perm_vacate slot
  | _ => exact List.Perm.refl _

/-- Each claim that is held or made is released once, or held in the end. -/
theorem claimed_perm (h : Ordered directory s) (ha : s.AdmitsAll directory events) :
    (s.claimed directory events ++ s.claims).Perm
      (s.released directory events ++ (s.run directory events).claims) := by
  induction events generalizing s with
  | nil => exact List.Perm.refl _
  | cons event events ih =>
    have hstep := h.claimed?_perm ha.1
    have hrest := ih (h.after ha.1) ha.2
    rw [Session.claimed, Session.released, List.append_assoc, List.append_assoc]
    have hswap := List.perm_append_comm_assoc (s.claimed? directory event).toList
      ((s.after directory event).claimed directory events) s.claims
    have hturn := List.perm_append_comm_assoc ((s.after directory event).claimed directory events)
      (s.released? directory event).toList (s.after directory event).claims
    exact hswap.trans (((hstep.append_left _).trans hturn).trans (hrest.append_left _))

/-- In a session, a directory is removed once for each claim that is released, and for no other claim. -/
theorem removed_eq (h : Ordered directory s) (ha : s.AdmitsAll directory events) :
    s.removed directory events = (s.released directory events).map ScratchClaim.path := by
  induction events generalizing s with
  | nil => rfl
  | cons event events ih =>
    rw [Session.removed, Session.released, List.map_append, h.removals_eq, ih (h.after ha.1) ha.2]

/-! ### What is done with other claims -/

theorem mem_after (h : Ordered directory s) (ha : s.Admits directory event) (hk : k ∈ s.slots.held)
    (hslot : event.slot? ≠ some k.1) : k ∈ (s.after directory event).slots.held := by
  have mem_vacate {slot : String} (hne : some slot ≠ some k.1) : k ∈ (s.slots.vacate slot).held :=
    ScratchSlots.mem_vacate.mpr ⟨hk, fun heq => hne (congrArg some heq.symm)⟩
  cases event with
  | reset slot p =>
    rw [Session.after]
    rcases h.fill_cases ha with ⟨f, t, hfill, -⟩ | ⟨t₁, t, hfill, -⟩
    · rw [hfill]
      exact hk
    · rw [hfill]
      exact List.mem_cons_of_mem _ (mem_vacate hslot)
  | close slot | drop slot =>
    obtain ⟨t, -, hclose, hdrop⟩ := h.release_eq slot
    simp only [Session.after, hclose, hdrop]
    exact mem_vacate hslot
  | _ => exact hk

theorem slot_of_respects (h : event.Respects directory slot c) : event.slot? ≠ some slot := by
  cases event with
  | reset other p => exact fun heq => h (Option.some.inj heq)
  | close other | drop other => exact fun heq => h (Option.some.inj heq)
  | _ => exact nofun

/-- An event that respects a claim takes nothing away there. -/
theorem not_takes (h : Ordered directory s) (ha : s.Admits directory event) (hk : (slot, c) ∈ s.slots.held)
    (hrespects : event.Respects directory slot c) (hl : target directory c.path <+: l) :
    ¬ s.Takes directory event l := by
  rintro (halters | ⟨c', hc', hpre⟩)
  · cases event with
    | write p x =>
      obtain rfl : l = target directory p := halters
      exact hrespects hl
    | remove p =>
      rcases List.prefix_or_prefix_of_prefix hl halters with hbelow | habove
      · exact hrespects hbelow
      · -- a removal above a claim would lie in another claim above this one
        obtain ⟨k, hk', hpre⟩ := ha
        rcases h.eq_or_apart hk' hk with heq | hapart
        · exact hrespects (heq ▸ hpre)
        · exact hapart.1 (hpre.trans habove)
    | _ => exact halters
  · exact (h.apart_of_event ha hk (fun _ _ => slot_of_respects hrespects) hc').not_both hpre hl

theorem steady (h : Ordered directory s) (ha : s.Admits directory event) (hc : s.slots.claim? slot = some c)
    (hrespects : event.Respects directory slot c) : (s.after directory event).slots.claim? slot = some c ∧
      Kept (target directory c.path <+: ·) (event.adds directory) s.tree (s.after directory event).tree := by
  have hk := ScratchSlots.mem_of_claim? hc
  refine ⟨ScratchSlots.claim?_of_mem (h.after ha).distinct (h.mem_after ha hk (slot_of_respects hrespects)), ?_⟩
  exact (h.kept_after ha).mono (fun l hl => h.not_takes ha hk hrespects hl) fun _ hl => hl

theorem steady_run (h : Ordered directory s) (ha : s.AdmitsAll directory events) (hc : s.slots.claim? slot = some c)
    (hrespects : ∀ event ∈ events, event.Respects directory slot c) :
    (s.run directory events).slots.claim? slot = some c ∧
      Kept (target directory c.path <+: ·) (events.flatMap (·.adds directory)) s.tree (s.run directory events).tree := by
  induction events generalizing s with
  | nil => exact ⟨hc, Kept.refl _ _ _⟩
  | cons event events ih =>
    obtain ⟨hevent, hevents⟩ := List.forall_mem_cons.mp hrespects
    obtain ⟨hheld, hkept⟩ := h.steady ha.1 hc hevent
    obtain ⟨hheld, hkept'⟩ := ih (h.after ha.1) ha.2 hheld hevents
    refine ⟨hheld, (hkept.mono (fun _ hl => hl) fun l hl => ?_).trans (hkept'.mono (fun _ hl => hl) fun l hl => ?_)⟩
    · exact List.mem_flatMap.mpr ⟨event, List.mem_cons_self, hl⟩
    · obtain ⟨later, hlater, hl⟩ := List.mem_flatMap.mp hl
      exact List.mem_flatMap.mpr ⟨later, List.mem_cons_of_mem _ hlater, hl⟩

/-! ### What is spared -/

/-- An event takes something away only at a claim that is held, or that it makes. -/
theorem takes_of_claims (ha : s.Admits directory event) (hl : s.Takes directory event l) :
    ∃ c ∈ (s.claimed? directory event).toList ++ s.claims, target directory c.path <+: l := by
  have of_held {k : String × ScratchClaim} (hk : k ∈ s.slots.held) :
      k.2 ∈ (s.claimed? directory event).toList ++ s.claims :=
    List.mem_append_right _ (List.mem_map.mpr ⟨k, hk, rfl⟩)
  rcases hl with halters | ⟨c, hc | hc, hpre⟩
  · cases event with
    | write p x =>
      obtain ⟨k, hk, hpre, -⟩ := ha
      exact ⟨_, of_held hk, halters ▸ hpre⟩
    | remove p =>
      obtain ⟨k, hk, hpre⟩ := ha
      exact ⟨_, of_held hk, hpre.trans halters⟩
    | _ => exact halters.elim
  · exact ⟨c, List.mem_append_left _ (Option.mem_toList.mpr hc), hpre⟩
  · obtain ⟨slot, -, hclaim⟩ := slot_of_released hc
    exact ⟨_, of_held (ScratchSlots.mem_of_claim? hclaim), hpre⟩

/-- No session takes away anything but at the claims that it holds or makes. -/
theorem spares_run {e : Entry} (h : Ordered directory s) (ha : s.AdmitsAll directory events)
    (hl : s.tree.get? l = some e)
    (hclear : ∀ c ∈ s.claims ++ s.claimed directory events, ¬ target directory c.path <+: l) :
    (s.run directory events).tree.get? l = some e := by
  induction events generalizing s with
  | nil => exact hl
  | cons event events ih =>
    have hmade : ∀ c ∈ (s.claimed? directory event).toList ++ s.claims, ¬ target directory c.path <+: l := by
      intro c hc
      rw [List.mem_append, or_comm, ← List.mem_append] at hc
      refine hclear c ?_
      rw [Session.claimed, ← List.append_assoc]
      exact List.mem_append_left _ hc
    have htakes : ¬ s.Takes directory event l := by
      intro htakes
      obtain ⟨c, hc, hpre⟩ := takes_of_claims ha.1 htakes
      exact hmade c hc hpre
    refine ih (h.after ha.1) ha.2 ((h.kept_after ha.1).get? htakes hl) fun c hc => ?_
    rcases List.mem_append.mp hc with hheld | hlater
    · exact hmade c ((h.claimed?_perm ha.1).symm.subset (List.mem_append_right _ hheld))
    · refine hclear c (List.mem_append_right _ ?_)
      rw [Session.claimed]
      exact List.mem_append_right _ hlater

/-- A session in order can be relied on. -/
theorem reliable (h : Ordered directory s) : Reliable directory s where
  claims := h.claims
  refuses := h.refuses
  releases := h.releases
  once := h.removals_eq
  vacant := vacant s directory
  steady := by
    intro events slot c ha hc hrespects
    obtain ⟨hheld, hkept⟩ := h.steady_run ha hc hrespects
    refine ⟨hheld, fun hdir => ?_, hkept⟩
    exact ((h.run ha).sound_of_claim? hheld).reachesDirectory
      (hkept.get? List.prefix_rfl (reachesDirectory_iff.mp hdir).2)
  spares := fun ha _ _ hl hclear => h.spares_run ha hl hclear

end Ordered

/-- Whatever is done in a session, it can be relied on; each claim that it has made is released once or still held, one
    removal of its directory has been made for each claim that is released and none for one that is held, and nothing was
    taken away or changed elsewhere. -/
theorem session_reliable (h : (Session.start t).AdmitsAll directory events) :
    Reliable directory ((Session.start t).run directory events) ∧
    ((Session.start t).claimed directory events).Perm
      ((Session.start t).released directory events ++ ((Session.start t).run directory events).claims) ∧
    (Session.start t).removed directory events =
      ((Session.start t).released directory events).map ScratchClaim.path ∧
    ∀ l e, t.get? l = some e → (∀ c ∈ (Session.start t).claimed directory events, ¬ target directory c.path <+: l) →
      ((Session.start t).run directory events).tree.get? l = some e := by
  have hstart := Ordered.start directory t
  have hperm := hstart.claimed_perm h
  have hnone : (Session.start t).claims = [] := rfl
  rw [hnone, List.append_nil] at hperm
  refine ⟨(hstart.run h).reliable, hperm, hstart.removed_eq h, fun l e hl hclear => ?_⟩
  refine hstart.spares_run h hl fun c hc => ?_
  rw [hnone, List.nil_append] at hc
  exact hclear c hc

/-- Two claims over leftovers: the first is closed, and dropped again when a directory has been made where it was. -/
def smallSession : List Event := [
  .reset "a" (Path.ofString "x"),
  .write (Path.ofString "x/f") [0x31],
  .reset "b" (Path.ofString "y/z"),
  .close "a",
  .makeDirectory (Path.ofString "x"),
  .drop "a",
  .drop "b"]

/-- The leftovers: an old scratch directory with a file in it. -/
def smallLeftovers : FileTree := ⟨[Small.folder "x" [Small.file "old" [0x30]]]⟩

/-- A directory that is made where a claim was closed stays, also when the slot is dropped: for each of the two claims a
    directory is removed once. -/
theorem session_reliable_small :
    (Session.start smallLeftovers).AdmitsAll [] smallSession ∧
    Reliable [] ((Session.start smallLeftovers).run [] smallSession) ∧
    ((Session.start smallLeftovers).claimed [] smallSession).Perm
      ((Session.start smallLeftovers).released [] smallSession ++
        ((Session.start smallLeftovers).run [] smallSession).claims) ∧
    (Session.start smallLeftovers).removed [] smallSession =
      ((Session.start smallLeftovers).released [] smallSession).map ScratchClaim.path ∧
    (Session.start smallLeftovers).removed [] smallSession = [Path.ofString "x", Path.ofString "y/z"] ∧
    ((Session.start smallLeftovers).run [] smallSession).tree.get? [Path.ofString "x"] = some .directory ∧
    ((Session.start smallLeftovers).run [] smallSession).tree.get? [Path.ofString "y", Path.ofString "z"] = none := by
  have h : (Session.start smallLeftovers).AdmitsAll [] smallSession := by decide +kernel
  obtain ⟨hreliable, hperm, hremoved, -⟩ := session_reliable h
  exact ⟨h, hreliable, hperm, hremoved, by decide +kernel, by decide +kernel, by decide +kernel⟩

end ObjectTables.Scratch
