import Mathlib.Control.Basic

/-!
# Actions

An action works on a state, and returns a result or fails. What it has done to the state
before it failed is not undone. `After` says what holds of the result and of the state
afterwards, and there is a rule for each way to make an action of others. The rule for a
sequence is used at the calls of an action whose own `After` is known.
-/

/-- **An action**, which may fail. -/
abbrev ActionM (ε σ α : Type) : Type := ExceptT ε (StateM σ) α

namespace ActionM

variable {ε σ α β : Type}

/-- The result of an action, and the state afterwards. -/
def exec (x : ActionM ε σ α) (s : σ) : Except ε α × σ := x.run.run s

/-- **Take the result of an action**, also if it has failed. -/
def attempt (x : ActionM ε σ α) : ActionM ε σ (Except ε α) :=
  ExceptT.mk fun s => ((.ok (x.exec s).1, (x.exec s).2) : Except ε (Except ε α) × σ)

/-- **What holds after an action**, of its result and of the state. -/
def After (x : ActionM ε σ α) (s : σ) (Q : Except ε α → σ → Prop) : Prop :=
  Q (x.exec s).1 (x.exec s).2

variable {x : ActionM ε σ α} {f : α → ActionM ε σ β} {s s' : σ} {a : α} {e : ε}
  {Q R : Except ε α → σ → Prop} {Q' : Except ε β → σ → Prop}

@[simp] theorem exec_throw (e : ε) (s : σ) :
    (throw e : ActionM ε σ α).exec s = (.error e, s) := rfl

@[simp] theorem exec_get (s : σ) : (get : ActionM ε σ σ).exec s = (.ok s, s) := rfl

@[simp] theorem exec_set (s s' : σ) : (set s' : ActionM ε σ PUnit).exec s = (.ok ⟨⟩, s') := rfl

@[simp] theorem exec_modify (f : σ → σ) (s : σ) :
    (modify f : ActionM ε σ PUnit).exec s = (.ok ⟨⟩, f s) := rfl

@[simp] theorem exec_ofExcept (r : Except ε α) (s : σ) :
    (ofExcept r : ActionM ε σ α).exec s = (r, s) := by
  cases r <;> rfl

/-- A sequence goes on with the result of its first part. -/
theorem exec_bind_ok (h : x.exec s = (.ok a, s')) : (x >>= f).exec s = (f a).exec s' := by
  have h' : x s = (.ok a, s') := h
  show (do let r ← x; ExceptT.bindCont f r : StateM σ _) s = _
  show (match x s with | (r, s'') => ExceptT.bindCont f r s'') = _
  rw [h']
  rfl

/-- A sequence fails where its first part does. -/
theorem exec_bind_error (h : x.exec s = (.error e, s')) :
    (x >>= f).exec s = (.error e, s') := by
  have h' : x s = (.error e, s') := h
  show (match x s with | (r, s'') => ExceptT.bindCont f r s'') = _
  rw [h']
  rfl

theorem exec_get_bind (f : σ → ActionM ε σ β) (s : σ) :
    ((get : ActionM ε σ σ) >>= f).exec s = (f s).exec s := exec_bind_ok (exec_get s)

theorem After.mono (h : After x s R) (hQ : ∀ r s', R r s' → Q r s') : After x s Q := hQ _ _ h

/-- **The rule of a sequence.** -/
theorem After.bind (h : After x s R) (hok : ∀ a s', R (.ok a) s' → After (f a) s' Q')
    (herr : ∀ e s', R (.error e) s' → Q' (.error e) s') : After (x >>= f) s Q' := by
  unfold After at h ⊢
  match hx : x.exec s with
  | (.ok a, s') =>
    rw [hx] at h
    rw [exec_bind_ok hx]
    exact hok a s' h
  | (.error e, s') =>
    rw [hx] at h
    rw [exec_bind_error hx]
    exact herr e s' h

/-- A sequence whose first part is known. -/
theorem After.bind_ok (hx : x.exec s = (.ok a, s')) (h : After (f a) s' Q') :
    After (x >>= f) s Q' := by
  unfold After
  rw [exec_bind_ok hx]
  exact h

theorem After.bind_error (hx : x.exec s = (.error e, s')) (h : Q' (.error e) s') :
    After (x >>= f) s Q' := by
  unfold After
  rw [exec_bind_error hx]
  exact h

/-- A result that may be missing. -/
theorem After.ofExcept_bind {r : Except ε α} (hok : ∀ a, r = .ok a → After (f a) s Q')
    (herr : ∀ e, r = .error e → Q' (.error e) s) : After (ofExcept r >>= f) s Q' := by
  cases hr : r with
  | ok a => exact After.bind_ok (exec_ofExcept _ s) (hok a hr)
  | error e => exact After.bind_error (exec_ofExcept _ s) (herr e hr)

theorem After.of_exec (h : x.exec s = (r, s')) (hQ : Q r s') : After x s Q := by
  unfold After
  rw [h]
  exact hQ

end ActionM
