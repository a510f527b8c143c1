import ObjectTables.Proofs.FileTree.Abreast
import ObjectTables.Proofs.Publication
import ObjectTables.Proofs.Scratch

/-! The file operations of a run, on two trees at once. Texts are read alike where the trees agree, and what is
    published is the same whatever stood in its place (`together_publish`, `together_copy`). A scratch directory is
    claimed alike whatever was left in it, and the trees agree on all of it from then on (`claim_abreast`). -/

namespace ObjectTables

open FileTree

variable {t u : FileTree} {directory : Location} {p source goal : Path} {ls : List Location} {up : List Name} {n : Name}
  {P : FileTree → FileTree → Prop}

namespace FileTree

/-- No directory stands in the way of a file in either tree, or the same stands there in both. -/
def Writable (directory : Location) (p : Path) (t u : FileTree) : Prop :=
  t.get? (target directory p) ≠ some .directory ∧ u.get? (target directory p) ≠ some .directory ∨
    t.get? (target directory p) = u.get? (target directory p)

instance (directory : Location) (p : Path) (t u : FileTree) : Decidable (Writable directory p t u) :=
  inferInstanceAs (Decidable (_ ≠ _ ∧ _ ≠ _ ∨ _ = _))

theorem stable_writable (ls : List Location) (directory : Location) (p : Path) :
    Stable (Abreast ls) (Writable directory p) := by
  intro t u t' u' hstep h
  rcases hstep (target directory p) with ⟨ht, hu⟩ | ⟨hsame, -⟩
  · rwa [Writable, ht, hu]
  · exact Or.inr hsame

theorem Writable.iff (h : Writable directory p t u) :
    t.get? (target directory p) = some .directory ↔ u.get? (target directory p) = some .directory := by
  rcases h with ⟨ht, hu⟩ | heq
  · exact ⟨fun h => absurd h ht, fun h => absurd h hu⟩
  · rw [heq]

theorem write_abreast (hway : Agree (way directory p) t u) (hgoal : Writable directory p t u)
    (hls : target directory p ∈ ls → target directory p ∈ way directory p) (x : Bytes) :
    (∃ e, t.write directory p x = .error e ∧ u.write directory p x = .error e) ∨
    ∃ t' u', t.write directory p x = .ok t' ∧ u.write directory p x = .ok u' ∧ Abreast ls t u t' u' ∧
      t'.get? (target directory p) = u'.get? (target directory p) := by
  have hwritable := writable_agree hway hgoal.iff
  cases hl : u.writable directory p with
  | error e => exact Or.inl ⟨e, by rw [write, hwritable, hl]; rfl, by rw [write, hl]; rfl⟩
  | ok l =>
    obtain ⟨t', ht⟩ := write_of_writable (hwritable.trans hl) x
    obtain ⟨u', hu⟩ := write_of_writable hl x
    have htget := get?_of_write ht
    have huget := get?_of_write hu
    obtain ⟨-, -, -, rfl, hdirs, hfile⟩ := writable_eq_ok.mp hl
    refine Or.inr ⟨t', u', ht, hu, fun m => ?_, by rw [htget, huget, if_pos rfl, if_pos rfl]⟩
    rw [htget, huget]
    by_cases hm : m = target directory p
    · refine Or.inr ⟨by rw [if_pos hm, if_pos hm], fun hmem => absurd (hdirs _ (hls (hm ▸ hmem))) hfile⟩
    · exact Or.inl ⟨if_neg hm, if_neg hm⟩

end FileTree

namespace Publication

theorem together_readText (ls : List Location)
    (hP : ∀ t u, P t u → Agree (target directory p :: way directory p) t u) :
    Together (Abreast ls) P P (readText directory p) :=
  Change.together_adapt (Change.together_look (Abreast.refl ls) fun t u htu => readText_agree (hP t u htu)) _

theorem together_writeText (hstable : Stable (Abreast ls) P)
    (hP : ∀ t u, P t u → Agree (way directory p) t u ∧ Writable directory p t u)
    (hls : target directory p ∈ ls → target directory p ∈ way directory p) (text : Text) :
    Together (Abreast ls) P (fun t u => P t u ∧ t.get? (target directory p) = u.get? (target directory p))
      (writeText directory p text) := by
  refine Change.together_adapt (Change.together_make (Abreast.refl ls) fun t u htu => ?_) _
  obtain ⟨hway, hgoal⟩ := hP t u htu
  rcases write_abreast hway hgoal hls text.encode with hfail | ⟨t', u', ht, hu, hstep, hsame⟩
  · exact Or.inl hfail
  · exact Or.inr ⟨t', u', ht, hu, hstep, hstable _ _ _ _ hstep htu, hsame⟩

/-! ### Publishing and copying -/

theorem get?_start_of_reaches (h : t.reaches directory p = true) :
    t.get? (start directory p) = some .directory := by
  obtain ⟨hfits, -, hway, -⟩ := locate_eq_ok.mp (locate_of_reaches h)
  cases hsteps : p.steps with
  | nil =>
    rw [start, Path.isAbsolute_of_steps_eq_nil hfits.nonempty hsteps]
    rfl
  | cons s steps =>
    rw [way, hsteps] at hway
    exact hway _ List.mem_cons_self

/-- A directory that is there already is one that its creation would have left as it is. -/
theorem yields_of_reaches {r : Except Cause Unit} {made : List Location} (h : Path.Tidy p)
    (hr : t.reaches directory p = true) (hfree : ∀ q ∈ target directory p :: way directory p, t.Free q)
    (hyields : Yields r made (createAll directory p) t) :
    r = .ok () ∧ ∀ l ∈ made, t.get? l = some .directory := by
  have hstart := get?_start_of_reaches hr
  obtain ⟨hfits, -⟩ := locate_eq_ok.mp (locate_of_reaches hr)
  have hdirs := get?_of_reaches hr hstart (hfree _ List.mem_cons_self)
  obtain ⟨t', hrun, hmade, -⟩ := hyields
  obtain ⟨t'', hok, -⟩ := run_createAll h hfits hstart hfree
  rw [hrun] at hok
  cases hok
  refine ⟨rfl, fun l hl => ?_⟩
  rcases (keeps_createAll directory h).of_run hrun l trivial with heq | ⟨hmem, -, -⟩
  · rw [← heq]
    exact hmade l hl
  · exact hdirs l hmem

/-- Where the way is free, what is made of the directory of a path depends on the path and its start alone. -/
theorem ensureParent_yields (directory : Location) (h : Path.Tidy p) (e : Option Entry) : ∃ r made, ∀ t : FileTree,
    t.get? (start directory p) = e → (∀ q ∈ way directory p, t.Free q) →
      Yields r made (ensureParent directory p) t := by
  rcases Path.parent?_cases p with ⟨parent, above, hparent, habove⟩ | ⟨hparent, -⟩
  · obtain ⟨hne, hpre, -, htidy, hway⟩ := way_parent directory h habove
    obtain ⟨r, made, hyields⟩ := createAll_yields directory htidy e
    refine ⟨r.mapError (Failure.createDirectory parent), made, fun t hstart hfree => ?_⟩
    have hpfree : ∀ q ∈ target directory parent :: way directory parent, t.Free q := fun q hq =>
      hfree q ((hway q).mpr hq)
    have hyields := hyields t (by rw [start_eq_of_isPrefix hpre hne, hstart]) hpfree
    rw [Yields, run_ensureParent_of_some hparent hne]
    split
    · next hr =>
      obtain ⟨rfl, hmade⟩ := yields_of_reaches htidy hr hpfree hyields
      exact ⟨t, rfl, hmade, fun _ _ => rfl⟩
    · obtain ⟨t', hrun, hget⟩ := hyields
      exact ⟨t', by rw [Change.run_adapt, hrun], hget⟩
  · exact ⟨.ok (), [], fun t _ _ => .of_unchanged (run_ensureParent_of_nil hparent t)⟩

theorem way_of_ensureParent {t' : FileTree} (h : Path.Tidy p) (hfree : ∀ q ∈ way directory p, t.Free q)
    (hrun : (ensureParent directory p).run t = (.ok (), t')) :
    ∀ q ∈ way directory p, q = start directory p ∨ t'.get? q = some .directory := by
  rcases Path.parent?_cases p with ⟨parent, above, hparent, habove⟩ | ⟨-, hnil⟩
  · obtain ⟨hne, -, -, -, hway⟩ := way_parent directory h habove
    refine fun q hq => Or.inr ?_
    rw [run_ensureParent_of_some hparent hne] at hrun
    split at hrun
    · next hr =>
      cases hrun
      have htarget := hfree _ ((hway _).mpr List.mem_cons_self)
      exact get?_of_reaches hr (get?_start_of_reaches hr) htarget q ((hway q).mp hq)
    · rw [Change.run_adapt] at hrun
      rcases hc : (createAll directory parent).run t with ⟨e | _, t''⟩
      · rw [hc] at hrun
        cases hrun
      · rw [hc] at hrun
        cases hrun
        exact get?_of_reachesDirectory (reachesDirectory_of_createAll hne hc) q ((hway q).mp hq)
  · have hladder := Path.ladder_ancestors h
    rw [hnil] at hladder
    exact fun q hq => Or.inl (way_of_ladder hladder hq)

/-- Where the ways are free, the directory of a path is made sure of in step, and then the trees agree on the way. -/
theorem ensureParent_of_free (ls : List Location) (h : Path.Tidy p)
    (hstart : t.get? (start directory p) = u.get? (start directory p))
    (hfree : ∀ q ∈ way directory p, t.Free q ∧ u.Free q) :
    ((ensureParent directory p).run t).1 = ((ensureParent directory p).run u).1 ∧
      Abreast ls t u ((ensureParent directory p).run t).2 ((ensureParent directory p).run u).2 ∧
      (((ensureParent directory p).run t).1.isOk = true →
        Agree (way directory p) ((ensureParent directory p).run t).2 ((ensureParent directory p).run u).2) := by
  obtain ⟨r, made, hyields⟩ := ensureParent_yields directory h (u.get? (start directory p))
  obtain ⟨hresult, hstep⟩ := abreast_of_yields ls (hyields t hstart fun q hq => (hfree q hq).1)
    (hyields u rfl fun q hq => (hfree q hq).2)
  refine ⟨hresult, hstep, fun hok q hq => ?_⟩
  rcases ht : (ensureParent directory p).run t with ⟨e | _, t'⟩
  · rw [ht] at hok
    cases hok
  rcases hu : (ensureParent directory p).run u with ⟨r', u'⟩
  rw [ht, hu] at hresult hstep
  obtain rfl : Except.ok () = r' := hresult
  rcases way_of_ensureParent h (fun q hq => (hfree q hq).1) ht q hq with rfl | htdir
  · exact hstep.get? hstart
  · rcases way_of_ensureParent h (fun q hq => (hfree q hq).2) hu q hq with rfl | hudir
    · exact hstep.get? hstart
    · exact htdir.trans hudir.symm

theorem ensureParent_of_agree (ls : List Location) (h : Path.Tidy p)
    (hstart : t.get? (start directory p) = u.get? (start directory p)) (hagree : Agree (way directory p) t u) :
    ((ensureParent directory p).run t).1 = ((ensureParent directory p).run u).1 ∧
      Abreast ls t u ((ensureParent directory p).run t).2 ((ensureParent directory p).run u).2 := by
  rcases Path.parent?_cases p with ⟨parent, above, hparent, habove⟩ | ⟨hparent, -⟩
  · obtain ⟨hne, hpre, -, htidy, hway⟩ := way_parent directory h habove
    have hpagree : Agree (target directory parent :: way directory parent) t u := hagree.mono fun l hl =>
      (hway l).mpr hl
    rw [run_ensureParent_of_some hparent hne, run_ensureParent_of_some hparent hne, reaches_agree hpagree]
    split
    · exact ⟨rfl, .refl ls t u⟩
    · have hpstart : start directory parent = start directory p := start_eq_of_isPrefix hpre hne
      obtain ⟨hsame, hpway⟩ := agree_cons.mp hpagree
      obtain ⟨hresult, hstep⟩ := createAll_abreast ls htidy (hpstart ▸ hstart)
        (Or.inr ⟨agree_cons.mpr ⟨hpstart ▸ hstart, hpway⟩, Or.inr hsame⟩)
      rw [Change.run_adapt, Change.run_adapt, hresult]
      exact ⟨rfl, hstep⟩
  · rw [run_ensureParent_of_nil hparent, run_ensureParent_of_nil hparent]
    exact ⟨rfl, .refl ls t u⟩

theorem together_ensureParent (hstable : Stable (Abreast ls) P) (h : Path.Tidy p)
    (hP : ∀ t u, P t u → t.get? (start directory p) = u.get? (start directory p) ∧ Comparable (way directory p) t u) :
    Together (Abreast ls) P (fun t u => P t u ∧ Agree (way directory p) t u) (ensureParent directory p) := by
  intro t u htu
  obtain ⟨hstart, hfree | hagree⟩ := hP t u htu
  · obtain ⟨hresult, hstep, hway⟩ := ensureParent_of_free ls h hstart hfree
    exact ⟨hresult, hstep, fun hok => ⟨hstable _ _ _ _ hstep htu, hway hok⟩⟩
  · obtain ⟨hresult, hstep⟩ := ensureParent_of_agree ls h hstart hagree
    exact ⟨hresult, hstep, fun _ => ⟨hstable _ _ _ _ hstep htu, hstep.agree hagree⟩⟩

/-- What two trees need for a file to be published in step. -/
structure Publishable (directory : Location) (goal : Path) (t u : FileTree) : Prop where
  start : t.get? (start directory goal) = u.get? (start directory goal)
  ways : Comparable (way directory goal) t u
  goal : Writable directory goal t u

theorem together_publish (hstable : Stable (Abreast ls) P) (h : Path.Tidy goal)
    (hsource : ∀ t u, P t u → Agree (target directory source :: way directory source) t u)
    (hgoal : ∀ t u, P t u → Publishable directory goal t u)
    (hls : target directory goal ∈ ls → target directory goal ∈ way directory goal) :
    Together (Abreast ls) P (fun t u => P t u ∧ t.get? (target directory goal) = u.get? (target directory goal))
      (publish directory source goal) := by
  refine (together_readText ls hsource).bind (Abreast.trans_all ls) fun text => ?_
  refine (together_ensureParent hstable h fun t u htu => ⟨(hgoal t u htu).start, (hgoal t u htu).ways⟩).bind
    (Abreast.trans_all ls) fun _ => ?_
  refine (together_writeText (hstable.and (stable_agree ls _)) (fun t u htu => ⟨htu.2, (hgoal t u htu.1).goal⟩) hls
    text.published).weaken (fun _ _ htu => htu) fun _ _ htu => ⟨htu.1.1, htu.2⟩

theorem copied_agree (h : Agree (target directory source :: way directory source) t u)
    (hway : Agree (way directory goal) t u) : copied t directory source goal = copied u directory source goal := by
  have hgoal : (t.locate directory goal).toOption = some (target directory source) ↔
      (u.locate directory goal).toOption = some (target directory source) := by
    by_cases hsame : target directory source = target directory goal
    · rw [locate_agree (agree_cons.mpr ⟨hsame ▸ h _ List.mem_cons_self, hway⟩)]
    · exact iff_of_false (fun ht => hsame (eq_target_of_toOption ht)) fun hu => hsame (eq_target_of_toOption hu)
  rw [copied, copied, locate_agree h]
  cases hlocate : u.locate directory source with
  | error e => rfl
  | ok m =>
    obtain ⟨-, rfl, -⟩ := locate_eq_ok.mp hlocate
    simp only [ok_bind, h _ List.mem_cons_self, hgoal]

theorem together_copy (hstable : Stable (Abreast ls) P) (h : Path.Tidy goal)
    (hsource : ∀ t u, P t u → Agree (target directory source :: way directory source) t u)
    (hgoal : ∀ t u, P t u → Publishable directory goal t u)
    (hls : target directory goal ∈ ls → target directory goal ∈ way directory goal) :
    Together (Abreast ls) P (fun t u => P t u ∧ t.get? (target directory goal) = u.get? (target directory goal))
      (copy directory source goal) := by
  have hwritten (t u : FileTree) (htu : P t u ∧ Agree (way directory goal) t u) :
      (∃ e, written directory source goal t = .error e ∧ written directory source goal u = .error e) ∨
      ∃ t' u', written directory source goal t = .ok t' ∧ written directory source goal u = .ok u' ∧
        Abreast ls t u t' u' ∧ P t' u' ∧ t'.get? (target directory goal) = u'.get? (target directory goal) := by
    have hcopied := copied_agree (hsource t u htu.1) htu.2
    rw [written, written, hcopied]
    cases copied u directory source goal with
    | error e => exact Or.inl ⟨e, rfl, rfl⟩
    | ok x =>
      rcases write_abreast htu.2 (hgoal t u htu.1).goal hls x with hfail | ⟨t', u', ht, hu, hstep, hsame⟩
      · exact Or.inl hfail
      · exact Or.inr ⟨t', u', ht, hu, hstep, hstable _ _ _ _ hstep htu.1, hsame⟩
  refine (together_ensureParent hstable h fun t u htu => ⟨(hgoal t u htu).start, (hgoal t u htu).ways⟩).bind
    (Abreast.trans_all ls) fun _ => ?_
  exact Change.together_adapt (Change.together_make (Abreast.refl ls) hwritten) _

theorem together_appendAliases {header compat : Path} (hstable : Stable (Abreast ls) P)
    (hheader : ∀ t u, P t u → Agree (target directory header :: way directory header) t u)
    (hcompat : ∀ t u, P t u → Agree (target directory compat :: way directory compat) t u)
    (hls : target directory header ∈ ls → target directory header ∈ way directory header) :
    Together (Abreast ls) P P (appendAliases directory header compat) := by
  refine (together_readText ls hheader).bind (Abreast.trans_all ls) fun _ => ?_
  refine (together_readText ls hcompat).bind (Abreast.trans_all ls) fun _ => ?_
  refine (together_writeText hstable (fun t u htu => ?_) hls _).weaken (fun _ _ htu => htu) fun _ _ htu => htu.1
  obtain ⟨htarget, hway⟩ := agree_cons.mp (hheader t u htu)
  exact ⟨hway, Or.inr htarget⟩

end Publication

namespace Scratch

/-! ### The scratch directory -/

theorem together_remove (hends : EndsIn p up n) (hstable : Stable (Abreast ls) P)
    (hls : ∀ l ∈ ls, ¬ target directory p <+: l)
    (hP : ∀ t u, P t u → Agree (target directory p :: way directory p) t u) :
    Together (Abreast ls) P P (remove directory p) := by
  refine Together.keep hstable fun t u htu => ?_
  obtain ⟨htarget, hway⟩ := agree_cons.mp (hP t u htu)
  rw [run_remove, run_remove, reaches_agree (hP t u htu)]
  split
  · obtain ⟨hresult, hstep⟩ := removeAll_abreast hends hls htarget hway
    rw [Change.run_adapt, Change.run_adapt, hresult]
    exact ⟨rfl, hstep⟩
  · exact ⟨rfl, .refl ls t u⟩

/-- A scratch directory can be cleared if it is reached, or if nothing is in it. -/
def Clearable (directory : Location) (p : Path) (t : FileTree) : Prop :=
  t.reachesDirectory directory p = true ∨ t.Free (target directory p) ∧
    ∀ l, target directory p <+: l → l ≠ target directory p → t.get? l = none

theorem clearable_of_none (h : t.get? (target directory p) = none) :
    Clearable directory p t := by
  refine Or.inr ⟨Or.inl h, fun l hpre hne => ?_⟩
  exact get?_eq_none_of_isPrefix (by rw [h]; simp) hpre (Ne.symm hne)

theorem Clearable.reachesDirectory (h : Clearable directory p t) (hends : EndsIn p up n)
    (hr : t.reaches directory p = true) : t.reachesDirectory directory p = true := by
  rcases h with h | ⟨hfree, -⟩
  · exact h
  · have hlocate := locate_of_reaches hr
    have hsome := (locate_eq_ok.mp hlocate).2.2.2.1 (by rw [hends.steps]; simp)
    refine reachesDirectory_iff.mpr ⟨hlocate, hfree.resolve_left fun hnone => ?_⟩
    rw [hnone] at hsome
    cases hsome

theorem Clearable.bare (h : Clearable directory p t) (hr : t.reaches directory p = false) :
    t.Free (target directory p) ∧ ∀ l, target directory p <+: l → l ≠ target directory p → t.get? l = none := by
  refine h.resolve_left fun h => ?_
  rw [reaches_of_reachesDirectory h] at hr
  cases hr

/-- Whatever was in a scratch directory that can be cleared is gone, and at most the directory itself is left. -/
theorem run_remove_of_clearable (hends : EndsIn p up n) (h : Clearable directory p t) :
    ∃ t', (remove directory p).run t = (.ok (), t') ∧ t'.Free (target directory p) ∧
      ∀ l, l ≠ target directory p → t'.get? l = if target directory p <+: l then none else t.get? l := by
  cases hr : t.reaches directory p with
  | false =>
    obtain ⟨hfree, hbelow⟩ := h.bare hr
    refine ⟨t, by rw [run_remove, hr]; rfl, hfree, fun l hl => ?_⟩
    split
    · next hpre => exact hbelow l hpre hl
    · rfl
  | true =>
    have hne := hends.target_ne_nil directory
    have hreaches := h.reachesDirectory hends hr
    obtain ⟨hlocate, hdir⟩ := reachesDirectory_iff.mp hreaches
    have hclear := get?_clear hne hdir
    obtain ⟨t', hremoved, hcases⟩ := removed_of_cleared hends hreaches
    refine ⟨t', ?_, ?_⟩
    · rw [run_remove, if_pos hr, Change.run_adapt, removeAll_eq,
        run_bind_of_ok (Change.run_make_of_ok (emptied_of_directory hlocate hdir)), Change.run_make_of_ok hremoved]
      rfl
    · rcases hcases with rfl | rfl
      · exact ⟨Or.inr (by rw [hclear, if_pos rfl]), fun l hl => by rw [hclear, if_neg hl]⟩
      · refine ⟨Or.inl (by rw [get?_erase hne, if_pos List.prefix_rfl]), fun l hl => ?_⟩
        rw [get?_erase hne, hclear, if_neg hl]
        split <;> rfl

/-- A scratch directory that can be cleared is claimed where its way is free: it is empty then, but for
    directories on its own way. -/
theorem run_claim_of_clearable (hends : EndsIn p up n) (hfits : Fits p) (h : Clearable directory p t)
    (hstart : t.get? (start directory p) = some .directory) (hapart : ¬ target directory p <+: start directory p)
    (hfree : ∀ q ∈ way directory p, ¬ target directory p <+: q → t.Free q) :
    ∃ t', (claim directory p).run t = (.ok ⟨p, false⟩, t') ∧ ∀ l, t'.get? l =
      if l ∈ target directory p :: way directory p then some .directory
      else if target directory p <+: l then none else t.get? l := by
  obtain ⟨t₁, hremove, hself, hget⟩ := run_remove_of_clearable hends h
  have hstart₁ : t₁.get? (start directory p) = some .directory := by
    rw [hget _ (by rintro he; exact hapart (he ▸ List.prefix_rfl)), if_neg hapart, hstart]
  have hfree₁ : ∀ q ∈ target directory p :: way directory p, t₁.Free q := by
    refine List.forall_mem_cons.mpr ⟨hself, fun q hq => ?_⟩
    by_cases hqself : q = target directory p
    · exact hqself ▸ hself
    · rw [Free, hget q hqself]
      split
      · exact Or.inl rfl
      · next hpre => exact hfree q hq hpre
  obtain ⟨t', hcreate, hdirs⟩ := run_createAll hends.tidy hfits hstart₁ hfree₁
  have hkept := (keeps_createAll directory hends.tidy).of_run hcreate
  refine ⟨t', ?_, fun l => ?_⟩
  · have hcreate : ((createAll directory p).adapt (Failure.createDirectory p)).run t₁ = (.ok (), t') := by
      rw [Change.run_adapt, hcreate]
      rfl
    rw [claim, run_bind_of_ok hremove, run_bind_of_ok hcreate]
    rfl
  · split
    · next hl => exact hdirs l hl
    · next hl =>
      rw [(hkept l trivial).resolve_right fun hmem => hl hmem.1]
      exact hget l fun he => hl (he ▸ List.mem_cons_self)

/-- What two trees need for a scratch directory to be claimed in step. -/
structure Alike (directory : Location) (p : Path) (t u : FileTree) : Prop where
  apart : ¬ target directory p <+: start directory p
  start : t.get? (FileTree.start directory p) = u.get? (FileTree.start directory p)
  first : Clearable directory p t
  second : Clearable directory p u
  ways : Comparable (way directory p) t u

/-- Where one of two trees reaches the scratch directory, nothing is in the way of its creation in either. -/
theorem Alike.of_reaches (h : Alike directory p t u)
    (hr : t.reaches directory p = true ∨ u.reaches directory p = true) :
    Fits p ∧ t.get? (FileTree.start directory p) = some .directory ∧
      u.get? (FileTree.start directory p) = some .directory ∧ ∀ q ∈ way directory p, t.Free q ∧ u.Free q := by
  have free {v w : FileTree} (hv : v.reaches directory p = true) (hagree : Agree (way directory p) v w) :
      ∀ q ∈ way directory p, v.Free q ∧ w.Free q := by
    intro q hq
    have hdir := (locate_eq_ok.mp (locate_of_reaches hv)).2.2.1 q hq
    exact ⟨Or.inr hdir, Or.inr (hagree q hq ▸ hdir)⟩
  rcases hr with hr | hr
  · have hstart := Publication.get?_start_of_reaches hr
    exact ⟨(locate_eq_ok.mp (locate_of_reaches hr)).1, hstart, h.start ▸ hstart, h.ways.elim id (free hr)⟩
  · have hstart := Publication.get?_start_of_reaches hr
    refine ⟨(locate_eq_ok.mp (locate_of_reaches hr)).1, h.start.trans hstart, hstart,
      h.ways.elim id fun hagree q hq => ?_⟩
    exact (free hr (fun l hl => (hagree l hl).symm) q hq).symm

theorem run_claim_of_unreached (hr : t.reaches directory p = false) :
    (claim directory p).run t = ((createAll directory p).adapt (Failure.createDirectory p) >>= fun _ =>
      (pure ⟨p, false⟩ : Change Failure ScratchClaim)).run t := by
  have hremove : (remove directory p).run t = (.ok (), t) := by
    rw [run_remove, hr]
    rfl
  rw [claim, run_bind_of_ok hremove]

/-- The claims of a scratch directory in two trees come to the same, in step. If they succeed, the trees agree on the
    scratch directory, on all that is in it and on its way. -/
structure ClaimedAlike (ls : List Location) (directory : Location) (p : Path) (t u : FileTree) : Prop where
  result : ((claim directory p).run t).1 = ((claim directory p).run u).1
  step : Abreast ls t u ((claim directory p).run t).2 ((claim directory p).run u).2
  inside : ((claim directory p).run t).1.isOk = true → ∀ l, target directory p <+: l →
    ((claim directory p).run t).2.get? l = ((claim directory p).run u).2.get? l
  way : ((claim directory p).run t).1.isOk = true →
    Agree (way directory p) ((claim directory p).run t).2 ((claim directory p).run u).2

/-- Where one of two scratch directories is reached, what was left over is removed, and both are made anew. -/
theorem claim_of_reached (hends : EndsIn p up n) (hls : ∀ l ∈ ls, ¬ target directory p <+: l)
    (h : Alike directory p t u) (hr : t.reaches directory p = true ∨ u.reaches directory p = true) :
    ClaimedAlike ls directory p t u := by
  obtain ⟨hfits, htstart, hustart, hfree⟩ := h.of_reaches hr
  obtain ⟨t', ht, htget⟩ := run_claim_of_clearable hends hfits h.first htstart h.apart fun q hq _ => (hfree q hq).1
  obtain ⟨u', hu, huget⟩ := run_claim_of_clearable hends hfits h.second hustart h.apart fun q hq _ => (hfree q hq).2
  obtain ⟨hstep, hsame⟩ := abreast_of_remade hls htget huget
  refine ⟨by rw [ht, hu], by rwa [ht, hu], fun _ l hl => ?_, fun _ l hl => ?_⟩
  · rw [ht, hu]
    exact hsame l (Or.inr hl)
  · rw [ht, hu]
    exact hsame l (Or.inl (List.mem_cons_of_mem _ hl))

/-- Where neither scratch directory is reached, nothing is removed, and nothing is below them. -/
theorem claim_of_unreached (hends : EndsIn p up n) (h : Alike directory p t u) (htr : t.reaches directory p = false)
    (hur : u.reaches directory p = false) : ClaimedAlike ls directory p t u := by
  obtain ⟨htself, htbelow⟩ := h.first.bare htr
  obtain ⟨huself, hubelow⟩ := h.second.bare hur
  have hcase : (∀ l ∈ target directory p :: way directory p, t.Free l ∧ u.Free l) ∨ Creatable directory p t u := by
    rcases h.ways with hfree | hagree
    · exact Or.inl (List.forall_mem_cons.mpr ⟨⟨htself, huself⟩, hfree⟩)
    · exact Or.inr ⟨agree_cons.mpr ⟨h.start, hagree⟩, Or.inl ⟨htself, huself⟩⟩
  obtain ⟨hresult, hstep⟩ := createAll_abreast ls hends.tidy h.start hcase
  have htclaim := run_claim_of_unreached htr
  have huclaim := run_claim_of_unreached hur
  rcases ht : (createAll directory p).run t with ⟨e | _, t'⟩
  · rcases hu : (createAll directory p).run u with ⟨r, u'⟩
    rw [ht, hu] at hresult hstep
    obtain rfl : Except.error e = r := hresult
    rw [run_bind_of_error (by rw [Change.run_adapt, ht]; rfl)] at htclaim
    rw [run_bind_of_error (by rw [Change.run_adapt, hu]; rfl)] at huclaim
    have hfails : ((claim directory p).run t).1.isOk ≠ true := by
      rw [htclaim]
      exact nofun
    exact ⟨by rw [htclaim, huclaim], by rwa [htclaim, huclaim], fun hok => absurd hok hfails,
      fun hok => absurd hok hfails⟩
  · rcases hu : (createAll directory p).run u with ⟨r, u'⟩
    rw [ht, hu] at hresult hstep
    obtain rfl : Except.ok () = r := hresult
    rw [run_bind_of_ok (by rw [Change.run_adapt, ht]; rfl)] at htclaim
    rw [run_bind_of_ok (by rw [Change.run_adapt, hu]; rfl)] at huclaim
    have htdirs := get?_of_reachesDirectory (reachesDirectory_of_createAll hends.ne_nil ht)
    have hudirs := get?_of_reachesDirectory (reachesDirectory_of_createAll hends.ne_nil hu)
    have hmade (l : Location) (hl : l ∈ target directory p :: way directory p) : t'.get? l = u'.get? l :=
      (htdirs l hl).trans (hudirs l hl).symm
    rw [← show _ = t' from congrArg Prod.snd htclaim, ← show _ = u' from congrArg Prod.snd huclaim] at hstep hmade
    refine ⟨by rw [htclaim, huclaim]; rfl, hstep, fun _ l hpre => ?_, fun _ l hl => hmade l (List.mem_cons_of_mem _ hl)⟩
    by_cases hself : l = target directory p
    · exact hmade l (hself ▸ List.mem_cons_self)
    · exact hstep.get? ((htbelow l hpre hself).trans (hubelow l hpre hself).symm)

/-- A scratch directory is claimed in step, whatever was left in it. -/
theorem claim_abreast (hends : EndsIn p up n) (hls : ∀ l ∈ ls, ¬ target directory p <+: l)
    (h : Alike directory p t u) : ClaimedAlike ls directory p t u := by
  by_cases hr : t.reaches directory p = true ∨ u.reaches directory p = true
  · exact claim_of_reached hends hls h hr
  · simp only [not_or, Bool.not_eq_true] at hr
    exact claim_of_unreached hends h hr.1 hr.2

end Scratch

end ObjectTables
