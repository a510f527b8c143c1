import ObjectTables.Proofs.Publication

/-! Whether they succeed or fail, the file operations leave no file half made: each does its whole job or leaves
    every file alone (`WholeOrHarmless`). All but one write that puts the file at its goal only adds directories,
    so this follows from where the operation ends (`WholeOrHarmless.of_outcome`). -/

namespace ObjectTables.Publication

open FileTree

variable {t : FileTree} {directory : Location} {source goal : Path}

/-- An operation that makes the file at `goal` of the one at `source` does its whole job or leaves all files alone.
    If it succeeds, the goal holds what has been made and the source what it held; either way nothing else has
    changed, but for new directories at the locations of `added` where nothing stood. -/
structure WholeOrHarmless (directory : Location) (source goal : Path) (made : Bytes → Bytes → Prop)
    (added : List Location) (operation : Change Failure Unit) (t : FileTree) : Prop where
  whole : ∀ t', operation.run t = (.ok (), t') → ∃ x y, t.get? (target directory source) = some (.file x) ∧
    made x y ∧ t'.read directory source = .ok x ∧ t'.read directory goal = .ok y ∧
    Kept (· ≠ target directory goal) added t t'
  harmless : ∀ e t', operation.run t = (.error e, t') → Kept Everywhere added t t'

/-- An operation that first only adds directories, and then fails or writes its goal as a whole, leaves no file half
    made. -/
theorem WholeOrHarmless.of_outcome {made : Bytes → Bytes → Prop} {added : List Location}
    {operation : Change Failure Unit} (h : target directory source ≠ target directory goal)
    (houtcome : ∃ t₁, Kept Everywhere added t t₁ ∧ ((∃ e, operation.run t = (.error e, t₁)) ∨
      ∃ x y t', t₁.read directory source = .ok x ∧ made x y ∧ t₁.write directory goal y = .ok t' ∧
        operation.run t = (.ok (), t'))) :
    WholeOrHarmless directory source goal made added operation t := by
  obtain ⟨t₁, hkept, ⟨e, herror⟩ | ⟨x, y, t₂, hread, hmade, hwrite, hok⟩⟩ := houtcome
  · refine ⟨fun t' hrun => ?_, fun _ t' hrun => ?_⟩
    · rw [herror] at hrun
      cases hrun
    · rw [herror] at hrun
      cases hrun
      exact hkept
  · refine ⟨fun t' hrun => ?_, fun _ t' hrun => ?_⟩
    · rw [hok] at hrun
      cases hrun
      -- a file is no new directory, so the source stood there from the start
      have hsource : t.get? (target directory source) = some (.file x) := by
        rcases hkept (target directory source) trivial with heq | ⟨-, -, hdir⟩
        · rw [← heq, get?_of_read hread]
        · rw [get?_of_read hread] at hdir
          cases hdir
      refine ⟨x, y, hsource, hmade, read_of_write_elsewhere hwrite h hread, read_of_write hwrite, fun l hl => ?_⟩
      rw [get?_of_write hwrite, if_neg hl]
      exact hkept l trivial
    · rw [hok] at hrun
      cases hrun

theorem publish_whole_or_harmless (h : target directory source ≠ target directory goal) (t : FileTree) :
    WholeOrHarmless directory source goal (fun x y => ∃ text, Bytes.decode? x = some text ∧ y = text.published.encode)
      (ancestry directory goal) (publish directory source goal) t := by
  obtain ⟨t₁, hkept, houtcome⟩ := run_publish_outcome directory source goal t
  refine .of_outcome h ⟨t₁, hkept, houtcome.imp_right ?_⟩
  rintro ⟨text, t', htext, hwrite, hrun⟩
  obtain ⟨x, hread, hdecode⟩ := readText_eq_ok.mp htext
  exact ⟨x, _, t', hkept.read (fun _ _ => trivial) hread, ⟨text, hdecode, rfl⟩, hwrite, hrun⟩

theorem copy_whole_or_harmless (h : target directory source ≠ target directory goal) (t : FileTree) :
    WholeOrHarmless directory source goal (fun x y => y = x) (ancestry directory goal)
      (copy directory source goal) t := by
  obtain ⟨t₁, hkept, houtcome⟩ := run_copy_outcome directory source goal t
  refine .of_outcome h ⟨t₁, hkept, houtcome.imp_right ?_⟩
  rintro ⟨x, t', hread, hwrite, hrun⟩
  rw [if_neg h] at hwrite
  exact ⟨x, x, t', hread, rfl, hwrite, hrun⟩

/-- Where both texts can be read, the aliases are appended. -/
theorem run_appendAliases {headerText compatText : Text} {header compat : Path}
    (hheader : t.readText directory header = .ok headerText) (hcompat : t.readText directory compat = .ok compatText) :
    ∃ t', t.write directory header (Header.appendAliases headerText compatText).encode = .ok t' ∧
      (appendAliases directory header compat).run t = (.ok (), t') := by
  obtain ⟨x, hread, -⟩ := readText_eq_ok.mp hheader
  obtain ⟨t', hwrite⟩ := write_of_writable (writable_of_read hread) (Header.appendAliases headerText compatText).encode
  refine ⟨t', hwrite, ?_⟩
  rw [appendAliases, run_bind_of_ok (run_readText_of_ok hheader), run_bind_of_ok (run_readText_of_ok hcompat)]
  exact run_writeText_of_ok hwrite

/-- Where one of the texts cannot be read, nothing changes. -/
theorem run_appendAliases_cases (directory : Location) (header compat : Path) (t : FileTree) :
    (∃ e, (appendAliases directory header compat).run t = (.error e, t)) ∨
    ∃ headerText compatText, t.readText directory header = .ok headerText ∧
      t.readText directory compat = .ok compatText := by
  cases hheader : t.readText directory header with
  | error e => exact Or.inl ⟨_, run_bind_of_error (run_readText_of_error hheader)⟩
  | ok headerText =>
    cases hcompat : t.readText directory compat with
    | error e =>
      refine Or.inl ⟨.read compat e, ?_⟩
      rw [appendAliases, run_bind_of_ok (run_readText_of_ok hheader)]
      exact run_bind_of_error (run_readText_of_error hcompat)
    | ok compatText => exact Or.inr ⟨headerText, compatText, rfl, rfl⟩

theorem appendAliases_whole_or_harmless {header compat : Path}
    (h : target directory compat ≠ target directory header) (t : FileTree) :
    WholeOrHarmless directory compat header (fun x y => ∃ headerText compatText,
        t.readText directory header = .ok headerText ∧ Bytes.decode? x = some compatText ∧
          y = (Header.appendAliases headerText compatText).encode)
      [] (appendAliases directory header compat) t := by
  refine .of_outcome h ⟨t, Kept.refl _ _ t, ?_⟩
  rcases run_appendAliases_cases directory header compat t with herror | ⟨headerText, compatText, hheader, hcompat⟩
  · exact Or.inl herror
  · obtain ⟨t', hwrite, hrun⟩ := run_appendAliases hheader hcompat
    obtain ⟨x, hread, hdecode⟩ := readText_eq_ok.mp hcompat
    exact Or.inr ⟨x, _, t', hread, ⟨headerText, compatText, hheader, hdecode, rfl⟩, hwrite, hrun⟩

theorem run_publish_of_unread {e : Cause} (h : t.readText directory source = .error e) (goal : Path) :
    (publish directory source goal).run t = (.error (.read source e), t) :=
  run_bind_of_error (run_readText_of_error h)

/-- Publishing, copying and appending aliases do their whole job or leave all files alone, where the two paths lead to
    different locations. A text is published, and a file copied, wherever its goal is open, and what they add besides
    are directories above the goal, also if they fail. A publication whose source cannot be read, because nothing
    stands there, a directory, or no text, changes nothing at all; nor do aliases that are not appended, and they are
    wherever both texts can be read. -/
theorem operations_whole_or_harmless (h : target directory source ≠ target directory goal) (t : FileTree) :
    (WholeOrHarmless directory source goal (fun x y => ∃ text, Bytes.decode? x = some text ∧ y = text.published.encode)
        (ancestry directory goal) (publish directory source goal) t ∧
      (∀ e, t.readText directory source = .error e →
        (publish directory source goal).run t = (.error (.read source e), t)) ∧
      ((∀ x text, t.get? (target directory source) = some (.file x) → Bytes.decode? x ≠ some text) →
        ∃ e, t.readText directory source = .error e) ∧
      (Open directory goal t → ∀ text, t.readText directory source = .ok text →
        ∃ t', (publish directory source goal).run t = (.ok (), t'))) ∧
    (WholeOrHarmless directory source goal (fun x y => y = x) (ancestry directory goal)
        (copy directory source goal) t ∧
      (Open directory goal t → ∀ x, t.read directory source = .ok x →
        ∃ t', (copy directory source goal).run t = (.ok (), t'))) ∧
    WholeOrHarmless directory source goal (fun x y => ∃ header compat, t.readText directory goal = .ok header ∧
        Bytes.decode? x = some compat ∧ y = (Header.appendAliases header compat).encode)
      [] (appendAliases directory goal source) t ∧
    (∀ e t', (appendAliases directory goal source).run t = (.error e, t') → t' = t) ∧
    ∀ header compat, t.readText directory goal = .ok header → t.readText directory source = .ok compat →
      ∃ t', (appendAliases directory goal source).run t = (.ok (), t') := by
  refine ⟨⟨publish_whole_or_harmless h t, fun e he => run_publish_of_unread he goal, readText_of_no_text,
      fun hopen text htext => ?_⟩, ⟨copy_whole_or_harmless h t, fun hopen x hx => ?_⟩,
    appendAliases_whole_or_harmless h t, fun e t' hrun => ?_, fun header compat hheader hcompat => ?_⟩
  · obtain ⟨t', hrun, -⟩ := run_publish hopen htext
    exact ⟨t', hrun⟩
  · obtain ⟨t', hrun, -⟩ := run_copy hopen hx
    exact ⟨t', hrun⟩
  · rcases run_appendAliases_cases directory goal source t with ⟨e', herror⟩ | ⟨header, compat, hheader, hcompat⟩
    · rw [herror] at hrun
      cases hrun
      rfl
    · obtain ⟨t₁, -, hok⟩ := run_appendAliases hheader hcompat
      rw [hok] at hrun
      cases hrun
  · obtain ⟨t', -, hrun⟩ := run_appendAliases hheader hcompat
    exact ⟨t', hrun⟩

/-- A copy can reach its source through a directory that it makes for its goal; a publication, which reads first, then
    fails and makes none. -/
theorem operations_whole_or_harmless_through_new_directory :
    let source := Path.ofString "new/../s"
    let goal := Path.ofString "new/deep/d"
    let t : FileTree := ⟨[(Path.ofString "s", .file [0x61, 0x09])]⟩
    target [] source ≠ target [] goal ∧
    ((copy [] source goal).run t).1 = .ok () ∧
    ((copy [] source goal).run t).2.get? (target [] goal) = some (.file [0x61, 0x09]) ∧
    ((copy [] source goal).run t).2.read [] source = .ok [0x61, 0x09] ∧
    Kept (· ≠ target [] goal) [[Path.ofString "new", Path.ofString "deep"], [Path.ofString "new"]] t
      ((copy [] source goal).run t).2 ∧
    (publish [] source goal).run t = (.error (.read source (.system .notFound)), t) := by
  intro source goal t
  have h : target [] source ≠ target [] goal := by decide +kernel
  have hok : ((copy [] source goal).run t).1 = .ok () := by decide +kernel
  have hancestry : ancestry [] goal = [[Path.ofString "new", Path.ofString "deep"], [Path.ofString "new"]] := by
    decide +kernel
  have hfile : t.get? (target [] source) = some (.file [0x61, 0x09]) := by decide +kernel
  have hrun : (copy [] source goal).run t = (.ok (), ((copy [] source goal).run t).2) := by
    rw [← hok]
    exact (Prod.eta _).symm
  obtain ⟨⟨-, hunread, -⟩, ⟨hcopy, -⟩, -⟩ := operations_whole_or_harmless h t
  obtain ⟨x, y, hx, hy, hsource, hgoal, hkept⟩ := hcopy.whole _ hrun
  obtain rfl := Entry.file.inj (Option.some.inj (hfile.symm.trans hx))
  rw [hy] at hgoal
  rw [hancestry] at hkept
  exact ⟨h, hok, get?_of_read hgoal, hsource, hkept, hunread _ (by decide +kernel)⟩

end ObjectTables.Publication
