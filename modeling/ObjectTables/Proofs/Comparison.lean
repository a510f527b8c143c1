import ObjectTables.Proofs.Computation

/-! Two runs of one computation, from states that are related. They go together if they come to the same and change
    their states in step (`Together`). A computation of two parts goes together if each part does
    (`Together.bind`), and what moves in step keeps is kept all along (`Together.keep`). -/

namespace ObjectTables

variable {ε α β σ : Type}

/-- From states that `P` relates, a computation comes to the same, `A` relates the states before to those after,
    and `Q` those after a success. -/
def Together (A : σ → σ → σ → σ → Prop) (P Q : σ → σ → Prop) (x : ExceptT ε (StateM σ) α) : Prop :=
  ∀ s u, P s u → (x.run s).1 = (x.run u).1 ∧ A s u (x.run s).2 (x.run u).2 ∧
    ((x.run s).1.isOk = true → Q (x.run s).2 (x.run u).2)

/-- What `P` relates is still related after a move in step. -/
def Stable (A : σ → σ → σ → σ → Prop) (P : σ → σ → Prop) : Prop :=
  ∀ s u s' u', A s u s' u' → P s u → P s' u'

theorem Stable.and {A : σ → σ → σ → σ → Prop} {P Q : σ → σ → Prop} (hP : Stable A P) (hQ : Stable A Q) :
    Stable A fun s u => P s u ∧ Q s u :=
  fun _ _ _ _ hstep h => ⟨hP _ _ _ _ hstep h.1, hQ _ _ _ _ hstep h.2⟩

namespace Together

variable {A : σ → σ → σ → σ → Prop} {P P' Q Q' R : σ → σ → Prop} {x : ExceptT ε (StateM σ) α}
  {f : α → ExceptT ε (StateM σ) β}

theorem pure (refl : ∀ s u, A s u s u) (a : α) : Together A P P (Pure.pure a : ExceptT ε (StateM σ) α) :=
  fun s u h => ⟨rfl, refl s u, fun _ => h⟩

theorem throw (refl : ∀ s u, A s u s u) (e : ε) :
    Together A P Q (MonadExcept.throw e : ExceptT ε (StateM σ) α) :=
  fun s u _ => ⟨rfl, refl s u, fun h => nomatch h⟩

theorem weaken (h : Together A P Q x) (hP : ∀ s u, P' s u → P s u) (hQ : ∀ s u, Q s u → Q' s u) :
    Together A P' Q' x := by
  intro s u hsu
  obtain ⟨hresult, hstep, hok⟩ := h s u (hP s u hsu)
  exact ⟨hresult, hstep, fun h => hQ _ _ (hok h)⟩

theorem keep (hP : Stable A P)
    (h : ∀ s u, P s u → (x.run s).1 = (x.run u).1 ∧ A s u (x.run s).2 (x.run u).2) : Together A P P x := by
  intro s u hsu
  obtain ⟨hresult, hstep⟩ := h s u hsu
  exact ⟨hresult, hstep, fun _ => hP _ _ _ _ hstep hsu⟩

/-- The second part needs to go together for the values only that the first one can come to. -/
theorem bind_of_run (hx : Together A P Q x)
    (trans : ∀ s u s' u' s'' u'', A s u s' u' → A s' u' s'' u'' → A s u s'' u'')
    (hf : ∀ a s s', x.run s = (.ok a, s') → Together A Q R (f a)) : Together A P R (x >>= f) := by
  intro s u hsu
  obtain ⟨hresult, hstep, hok⟩ := hx s u hsu
  rcases hs : x.run s with ⟨e | a, s'⟩
  · -- both stop in the first part
    rcases hu : x.run u with ⟨r, u'⟩
    rw [hs, hu] at hresult hstep
    obtain rfl : Except.error e = r := hresult
    rw [run_bind_of_error hs, run_bind_of_error hu]
    exact ⟨rfl, hstep, fun h => nomatch h⟩
  · rcases hu : x.run u with ⟨r, u'⟩
    rw [hs, hu] at hresult hstep hok
    obtain rfl : Except.ok a = r := hresult
    rw [run_bind_of_ok hs, run_bind_of_ok hu]
    obtain ⟨hresult', hstep', hok'⟩ := hf a s s' hs s' u' (hok rfl)
    exact ⟨hresult', trans _ _ _ _ _ _ hstep hstep', hok'⟩

theorem bind (hx : Together A P Q x) (trans : ∀ s u s' u' s'' u'', A s u s' u' → A s' u' s'' u'' → A s u s'' u'')
    (hf : ∀ a, Together A Q R (f a)) : Together A P R (x >>= f) := hx.bind_of_run trans fun a _ _ _ => hf a

end Together

namespace Change

variable {A : FileTree → FileTree → FileTree → FileTree → Prop} {P Q : FileTree → FileTree → Prop}

theorem together_look (refl : ∀ t u, A t u t u) {g : FileTree → Except ε α} (h : ∀ t u, P t u → g t = g u) :
    Together A P P (look g) := by
  intro t u htu
  rw [run_look, run_look, h t u htu]
  exact ⟨rfl, refl t u, fun _ => htu⟩

theorem together_make (refl : ∀ t u, A t u t u) {g : FileTree → Except ε FileTree}
    (h : ∀ t u, P t u → (∃ e, g t = .error e ∧ g u = .error e) ∨
      ∃ t' u', g t = .ok t' ∧ g u = .ok u' ∧ A t u t' u' ∧ Q t' u') : Together A P Q (make g) := by
  intro t u htu
  rcases h t u htu with ⟨e, ht, hu⟩ | ⟨t', u', ht, hu, hstep, hQ⟩
  · rw [run_make_of_error ht, run_make_of_error hu]
    exact ⟨rfl, refl t u, fun h => nomatch h⟩
  · rw [run_make_of_ok ht, run_make_of_ok hu]
    exact ⟨rfl, hstep, fun _ => hQ⟩

theorem together_adapt {ε' : Type} {c : Change ε α} (h : Together A P Q c) (g : ε → ε') :
    Together A P Q (c.adapt g) := by
  intro t u htu
  obtain ⟨hresult, hstep, hok⟩ := h t u htu
  rw [run_adapt, run_adapt, hresult]
  refine ⟨rfl, hstep, fun h => hok ?_⟩
  rw [hresult]
  cases hr : (c.run u).1 with
  | ok a => rfl
  | error e =>
    rw [hr] at h
    cases h

end Change

end ObjectTables
