import Mathlib.Data.List.Basic

/-!
# Runs

A program that is given one operation after another. What its callers have to
observe is a condition on an operation and the state it is given in, and
`Meets` says that it holds all along a run. An invariant which each operation
keeps that is given under the condition then holds at the end
(`Meets.invariant`).
-/

namespace Runs

variable {σ α : Type*}

/-- The state after a sequence of operations. -/
def run (step : σ → α → σ) (s : σ) (ops : List α) : σ := ops.foldl step s

/-- **All along a run**, each operation meets a condition in the state it is
given in. -/
def Meets (step : σ → α → σ) (ok : σ → α → Prop) : σ → List α → Prop
  | _, [] => True
  | s, a :: ops => ok s a ∧ Meets step ok (step s a) ops

/-- Whether a run meets a condition can be tried out. -/
instance decidableMeets (step : σ → α → σ) (ok : σ → α → Prop) [∀ s a, Decidable (ok s a)] :
    ∀ (s : σ) (ops : List α), Decidable (Meets step ok s ops)
  | _, [] => inferInstanceAs (Decidable True)
  | s, a :: ops =>
    have := decidableMeets step ok (step s a) ops
    inferInstanceAs (Decidable (ok s a ∧ Meets step ok (step s a) ops))

variable {step : σ → α → σ} {ok ok' : σ → α → Prop} {inv : σ → Prop} {s : σ} {ops : List α}

/-- **An invariant holds at the end of a run** if it holds at its beginning and
is kept by the operations that meet the condition. -/
theorem Meets.invariant (h : Meets step ok s ops) (hs : inv s)
    (hstep : ∀ s a, inv s → ok s a → inv (step s a)) : inv (run step s ops) := by
  induction ops generalizing s with
  | nil => exact hs
  | cons a ops ih => exact ih h.2 (hstep s a hs h.1)

/-- An invariant that each operation keeps holds at the end of every run. -/
theorem invariant (hs : inv s) (hstep : ∀ s a, inv s → inv (step s a)) (ops : List α) :
    inv (run step s ops) := by
  induction ops generalizing s with
  | nil => exact hs
  | cons a ops ih => exact ih (hstep s a hs)

/-- The last operation of a run. -/
theorem Meets.last {a : α} (h : Meets step ok s (ops ++ [a])) : ok (run step s ops) a := by
  induction ops generalizing s with
  | nil => exact h.1
  | cons b ops ih => exact ih h.2

/-- A condition that is always met. -/
theorem Meets.of_forall (h : ∀ s a, ok s a) : Meets step ok s ops := by
  induction ops generalizing s with
  | nil => exact trivial
  | cons a ops ih => exact ⟨h s a, ih⟩

/-- **An invariant holds all along a run** if and only if all of its operations meet the condition
under which an operation keeps it, for runs of which each operation is known to meet another. -/
theorem Meets.forall_prefix_iff (h : Meets step ok' s ops) (hs : inv s)
    (hstep : ∀ s a, inv s → ok' s a → (inv (step s a) ↔ ok s a)) :
    (∀ before after, ops = before ++ after → inv (run step s before)) ↔ Meets step ok s ops := by
  induction ops generalizing s with
  | nil =>
    refine iff_of_true (fun before after heq => ?_) trivial
    rw [(List.append_eq_nil_iff.mp heq.symm).1]
    exact hs
  | cons a ops ih =>
    rw [Meets, ← hstep s a hs h.1]
    constructor
    · intro hall
      have ha : inv (step s a) := hall [a] ops rfl
      exact ⟨ha, (ih h.2 ha).mp fun before after heq =>
        hall (a :: before) after (congrArg (a :: ·) heq)⟩
    · rintro ⟨ha, hmeets⟩ before after heq
      cases before with
      | nil => exact hs
      | cons b before =>
        obtain ⟨rfl, hops⟩ := List.cons.inj heq
        exact (ih h.2 ha).mpr hmeets before after hops

/-- For all runs. -/
theorem forall_prefix_iff (hs : inv s) (hstep : ∀ s a, inv s → (inv (step s a) ↔ ok s a)) :
    (∀ before after, ops = before ++ after → inv (run step s before)) ↔ Meets step ok s ops :=
  (Meets.of_forall fun _ _ => trivial : Meets step (fun _ _ => True) s ops).forall_prefix_iff hs
    fun s a hs _ => hstep s a hs

/-- **Two conditions that come to the same** wherever an invariant holds, which one of them
keeps, are met by the same runs. -/
theorem Meets.iff_of_step (hs : inv s) (hok : ∀ s a, inv s → (ok s a ↔ ok' s a))
    (hstep : ∀ s a, inv s → ok' s a → inv (step s a)) :
    Meets step ok s ops ↔ Meets step ok' s ops := by
  induction ops generalizing s with
  | nil => exact Iff.rfl
  | cons a ops ih =>
    rw [Meets, Meets, hok s a hs]
    exact and_congr_right fun ha => ih (hstep s a hs ha)

end Runs
