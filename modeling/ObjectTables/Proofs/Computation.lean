import ObjectTables.FileTree.Access

/-! Computations that may fail, and those that change a state besides. A failure ends a computation, so a
    run of two parts either ends in the first or goes on where that one stopped (`run_bind_cases`). What
    each part keeps, whether it succeeds or not, the whole keeps (`Keeps.bind`). -/

namespace ObjectTables

variable {ε α β σ : Type}

/-! ### Outcomes -/

instance decidableEqOutcome [DecidableEq ε] [DecidableEq α] : DecidableEq (Except ε α)
  | .ok a, .ok b => decidable_of_iff (a = b) ⟨congrArg _, Except.ok.inj⟩
  | .error a, .error b => decidable_of_iff (a = b) ⟨congrArg _, Except.error.inj⟩
  | .ok _, .error _ => isFalse (by simp)
  | .error _, .ok _ => isFalse (by simp)

theorem ok_bind (a : α) (f : α → Except ε β) : Except.ok a >>= f = f a := rfl

theorem bind_eq_ok {x : Except ε α} {f : α → Except ε β} {b : β} :
    x >>= f = .ok b ↔ ∃ a, x = .ok a ∧ f a = .ok b := by
  cases x with
  | ok a => exact ⟨fun h => ⟨a, rfl, h⟩, fun ⟨_, ha, h⟩ => Except.ok.inj ha ▸ h⟩
  | error e => exact ⟨fun h => (nomatch h), fun ⟨_, ha, _⟩ => (nomatch ha)⟩

/-! ### Runs -/

variable {x : ExceptT ε (StateM σ) α} {f : α → ExceptT ε (StateM σ) β} {s s' : σ} {a : α} {e : ε}

theorem run_bind_of_ok (h : x.run s = (.ok a, s')) : (x >>= f).run s = (f a).run s' := by
  show StateT.bind x.run (ExceptT.bindCont f) s = _
  rw [StateT.bind, show x.run s = _ from h]
  rfl

theorem run_bind_of_error (h : x.run s = (.error e, s')) : (x >>= f).run s = (.error e, s') := by
  show StateT.bind x.run (ExceptT.bindCont f) s = _
  rw [StateT.bind, show x.run s = _ from h]
  rfl

/-- A run of two parts ends in the first, or the first succeeds and the second goes on. -/
theorem run_bind_cases (x : ExceptT ε (StateM σ) α) (f : α → ExceptT ε (StateM σ) β) (s : σ) :
    (∃ e s', x.run s = (.error e, s') ∧ (x >>= f).run s = (.error e, s')) ∨
    ∃ a s', x.run s = (.ok a, s') ∧ (x >>= f).run s = (f a).run s' := by
  rcases h : x.run s with ⟨a | e, s'⟩
  · exact Or.inl ⟨_, s', rfl, run_bind_of_error h⟩
  · exact Or.inr ⟨_, s', rfl, run_bind_of_ok h⟩

theorem run_bind_eq_ok {b : β} (h : (x >>= f).run s = (.ok b, s')) :
    ∃ a q, x.run s = (.ok a, q) ∧ (f a).run q = (.ok b, s') := by
  rcases run_bind_cases x f s with ⟨e, q, -, he⟩ | ⟨a, q, hx, hf⟩
  · rw [he] at h
    cases h
  · exact ⟨a, q, hx, hf ▸ h⟩

theorem run_eq_error_of_isOk (h : (x.run s).1.isOk = false) : ∃ e s', x.run s = (.error e, s') := by
  rcases hx : x.run s with ⟨e | a, s'⟩
  · exact ⟨e, s', rfl⟩
  · rw [hx] at h
    cases h

theorem run_return (x : ExceptT ε (StateM σ) α) (b : β) (s : σ) :
    ((x >>= fun _ => pure b).run s).2 = (x.run s).2 := by
  rcases run_bind_cases x (fun _ => pure b) s with ⟨e, s', hx, hb⟩ | ⟨a, s', hx, hb⟩
  · rw [hb, hx]
  · rw [hb, hx]
    rfl

/-- Whatever comes of a computation, the state before it and the one after it are related. -/
def Keeps (R : σ → σ → Prop) (x : ExceptT ε (StateM σ) α) : Prop := ∀ s, R s (x.run s).2

namespace Keeps

variable {R : σ → σ → Prop}

theorem of_run (h : Keeps R x) {r : Except ε α} (hrun : x.run s = (r, s')) : R s s' := by
  have hs := h s
  rwa [hrun] at hs

theorem pure (refl : ∀ s, R s s) (a : α) : Keeps R (Pure.pure a : ExceptT ε (StateM σ) α) := refl

theorem throw (refl : ∀ s, R s s) (e : ε) : Keeps R (throw e : ExceptT ε (StateM σ) α) := refl

theorem bind (hx : Keeps R x) (trans : ∀ a b c, R a b → R b c → R a c) (hf : ∀ a, Keeps R (f a)) :
    Keeps R (x >>= f) := by
  intro s
  rcases run_bind_cases x f s with ⟨e, s', h, hb⟩ | ⟨a, s', h, hb⟩
  · have hs := hx s
    rw [h] at hs
    rwa [hb]
  · have hs := hx s
    rw [h] at hs
    rw [hb]
    exact trans _ _ _ hs (hf a s')

theorem mono {R' : σ → σ → Prop} (h : Keeps R x) (hR : ∀ a b, R a b → R' a b) : Keeps R' x := fun s => hR _ _ (h s)

end Keeps

/-! ### Changes -/

namespace Change

variable {t t' : FileTree}

theorem run_get (t : FileTree) : (get : Change ε FileTree).run t = (.ok t, t) := rfl

theorem run_look (g : FileTree → Except ε α) (t : FileTree) : (look g).run t = (g t, t) := by
  rw [look, run_bind_of_ok (run_get t)]
  cases g t with
  | ok a => rfl
  | error e => rfl

theorem run_make_of_ok {g : FileTree → Except ε FileTree} (h : g t = .ok t') : (make g).run t = (.ok (), t') := by
  rw [make, run_bind_of_ok (run_get t), h]
  rfl

theorem run_make_of_error {g : FileTree → Except ε FileTree} (h : g t = .error e) : (make g).run t = (.error e, t) := by
  rw [make, run_bind_of_ok (run_get t), h]
  rfl

theorem run_adapt {ε' : Type} (g : ε → ε') (c : Change ε α) (t : FileTree) :
    (c.adapt g).run t = ((c.run t).1.mapError g, (c.run t).2) := by
  show Change.adapt g c t = _
  rw [Change.adapt]
  rcases c.run t with ⟨a | e, t'⟩ <;> rfl

theorem keeps_adapt {ε' : Type} {R : FileTree → FileTree → Prop} {c : Change ε α} (h : Keeps R c) (g : ε → ε') :
    Keeps R (c.adapt g) := by
  intro t
  rw [run_adapt]
  exact h t

theorem keeps_make {R : FileTree → FileTree → Prop} (refl : ∀ t, R t t) {g : FileTree → Except ε FileTree}
    (h : ∀ t t', g t = .ok t' → R t t') : Keeps R (make g) := by
  intro t
  cases hg : g t with
  | ok t' =>
    rw [run_make_of_ok hg]
    exact h _ _ hg
  | error e =>
    rw [run_make_of_error hg]
    exact refl t

end Change

end ObjectTables
