import NormalOrder.Reduction.Run

/-!
# What runs keep

A run does nothing to a term but make steps, so what every step keeps holds of all terms that a run
goes through, and two environments that make the same steps make the same runs. A run that halts has
met a term without a step.
-/

namespace NormalOrder.Reduction

variable {env env' : Environment} {b : Bounds}

theorem run_eq_snd_trace (env : Environment) (b : Bounds) (patience : Nat) (t : Term) :
    run env b patience t = (trace env b patience t).2 :=
  (snd_traceFrom env b _ t 0).symm

theorem step_of_move {t next : Term} {steps : Nat} (h : move env b t steps = .go next) :
    step env t = some next := by
  rw [move] at h
  split at h
  · cases h
  · split at h
    · cases h
    · split at h
      · cases h
      · next u hu =>
        cases h
        exact hu

theorem step_eq_none_of_move {t : Term} {steps : Nat} (h : move env b t steps = .stop .halted) :
    step env t = none := by
  rw [move] at h
  split at h
  · split at h
    · next hnone => exact Option.isNone_iff_eq_none.1 hnone
    · cases h
  · split at h
    · cases h
    · split at h
      · assumption
      · cases h

theorem move_congr {t : Term} (h : step env t = step env' t) (steps : Nat) :
    move env b t steps = move env' b t steps := by
  rw [move, move, h]

/-- A property that steps keep holds of every term of a trace and of its result. -/
theorem traceFrom_forall {p : Term → Prop} (hstep : ∀ t u, p t → step env t = some u → p u)
    (fuel : Nat) {t : Term} (steps : Nat) (ht : p t) :
    (∀ u ∈ (traceFrom env b fuel t steps).1, p u) ∧
      ∀ r, (traceFrom env b fuel t steps).2 = some r → p r.term := by
  induction fuel generalizing t steps with
  | zero => simp [traceFrom]
  | succ fuel ih =>
    rw [traceFrom]
    split
    · refine ⟨by simp, ?_⟩
      rintro r ⟨⟩
      exact ht
    · next next hmove =>
      have hnext : p next := hstep t next ht (step_of_move hmove)
      obtain ⟨hterms, hresult⟩ := ih (steps + 1) hnext
      exact ⟨List.forall_mem_cons.2 ⟨hnext, hterms⟩, hresult⟩

theorem runFrom_forall {p : Term → Prop} (hstep : ∀ t u, p t → step env t = some u → p u)
    {fuel : Nat} {t : Term} {steps : Nat} {r : Result} (ht : p t)
    (h : runFrom env b fuel t steps = some r) : p r.term := by
  rw [← snd_traceFrom] at h
  exact (traceFrom_forall hstep fuel steps ht).2 r h

/-- Environments that make the same step of every term with a property that steps keep make the same
traces of such terms. -/
theorem traceFrom_congr {p : Term → Prop} (hstep : ∀ t u, p t → step env t = some u → p u)
    (hsame : ∀ t, p t → step env t = step env' t) (fuel : Nat) {t : Term} (steps : Nat)
    (ht : p t) : traceFrom env b fuel t steps = traceFrom env' b fuel t steps := by
  induction fuel generalizing t steps with
  | zero => rfl
  | succ fuel ih =>
    rw [traceFrom, traceFrom, ← move_congr (hsame t ht)]
    split
    · rfl
    · next next hmove => rw [ih (steps + 1) (hstep t next ht (step_of_move hmove))]

theorem step_eq_none_of_halted {fuel : Nat} {t : Term} {steps : Nat} {r : Result}
    (h : runFrom env b fuel t steps = some r) (hr : r.outcome = .halted) :
    step env r.term = none := by
  induction fuel generalizing t steps with
  | zero => cases h
  | succ fuel ih =>
    rw [runFrom] at h
    split at h
    · next outcome hmove =>
      cases h
      have houtcome : outcome = .halted := hr
      subst houtcome
      exact step_eq_none_of_move hmove
    · exact ih h

end NormalOrder.Reduction
