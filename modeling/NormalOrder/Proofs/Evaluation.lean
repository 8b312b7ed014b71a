import NormalOrder.Proofs.Action
import NormalOrder.Proofs.Normalization
import NormalOrder.Proofs.Runs

/-!
# Evaluation is a run

An evaluation changes nothing in the session, and its result is that of a run with the bindings of
the session, whether or not the terms on the way are printed.
-/

namespace NormalOrder.Session

open NormalOrder.Action

variable {w w₁ : Workspace} {t : Term} {r : Reduction.Result}

/-- What is left to do in an evaluation when the term has been reduced. -/
def conclude (t : Term) (result? : Option Reduction.Result) : Action Reduction.Result :=
  match result? with
  | none => throw .stalled
  | some result => do
    log Log.debug ("'" ++ t.render ++ "': " ++ result.outcome.describe ++ " after " ++
      toString result.steps ++ " steps")
    match result.outcome with
    | .halted => pure ()
    | .limitReached =>
      warn (stopped t " stopped after " result.steps
        " steps: it might not have a normal form (see :limit)")
    | .cancelled => warn (stopped t " interrupted after " result.steps " steps")
    return result

theorem evaluate_eq (t : Term) :
    evaluate t = (do
      let w ← get
      let limit ← bound
      followTrace (Reduction.trace w.session.environment ⟨limit, w.interrupt⟩ w.patience t).1
      conclude t (Reduction.trace w.session.environment ⟨limit, w.interrupt⟩ w.patience t).2) :=
  rfl

section Keeps

variable {γ : Type} {part : Workspace → γ}
  (hevents : ∀ w events, part { w with events } = part w)
  (hinterrupt : ∀ w interrupt, part { w with interrupt } = part w)

include hevents hinterrupt in
theorem keeps_followTrace (terms : List Term) : Keeps part (followTrace terms) := by
  refine .bind .session fun s => ?_
  split
  · exact .bind (.forM (fun _ => .emit hevents _) terms) fun _ => .modify fun w => hinterrupt w _
  · exact .modify fun w => hinterrupt w _

theorem keeps_bound : Keeps part bound := by
  refine .bind .session fun s => ?_
  cases s.limit with
  | unlimited => exact .pure none
  | steps count => exact .pure (some count)
  | blank => exact .throw _

include hevents in
theorem keeps_conclude (t : Term) (result? : Option Reduction.Result) :
    Keeps part (conclude t result?) := by
  rcases result? with - | ⟨last, steps, outcome⟩
  · exact .throw _
  · refine .bind (.emit hevents _) fun _ => ?_
    cases outcome with
    | halted => exact .pure _
    | limitReached => exact .bind (.bind .session fun _ => .emit hevents _) fun _ => .pure _
    | cancelled => exact .bind (.bind .session fun _ => .emit hevents _) fun _ => .pure _

include hevents hinterrupt in
/-- An evaluation changes nothing but the events and the interrupt. -/
theorem keeps_evaluate (t : Term) : Keeps part (evaluate t) := by
  rw [evaluate_eq]
  refine .bind .get fun w => .bind keeps_bound fun limit => ?_
  exact .bind (keeps_followTrace hevents hinterrupt _) fun _ => keeps_conclude hevents t _

end Keeps

theorem keeps_session_evaluate (t : Term) : Keeps Workspace.session (evaluate t) :=
  keeps_evaluate (fun _ _ => rfl) (fun _ _ => rfl) t

theorem session_of_evaluate (h : evaluate t w = .ok r w₁) : w₁.session = w.session :=
  (keeps_session_evaluate t).of_ok h

theorem eq_some_of_conclude {result? : Option Reduction.Result}
    (h : conclude t result? w = .ok r w₁) : result? = some r := by
  rcases result? with - | ⟨last, steps, outcome⟩
  · cases h
  · cases outcome <;> cases h <;> rfl

/-- What is evaluated is reduced with the bindings of the session. -/
theorem run_of_evaluate (h : evaluate t w = .ok r w₁) :
    ∃ b, Reduction.run w.session.environment b w.patience t = some r := by
  rw [evaluate_eq] at h
  obtain ⟨_, _, hget, h⟩ := bind_eq_ok h
  cases hget
  obtain ⟨limit, w₂, -, h⟩ := bind_eq_ok h
  obtain ⟨_, w₃, -, h⟩ := bind_eq_ok h
  refine ⟨⟨limit, w.interrupt⟩, ?_⟩
  rw [Reduction.run_eq_snd_trace]
  exact eq_some_of_conclude h

theorem followTrace_eq_ok (terms : List Term) (w : Workspace) :
    ∃ w₁, followTrace terms w = .ok () w₁ := by
  have hprint : ∀ w, ∃ w₁, terms.forM (fun t => printLine ("  → " ++ t.render)) w = .ok () w₁ := by
    induction terms with
    | nil => exact fun w => ⟨w, rfl⟩
    | cons t terms ih =>
      intro w
      exact ih _
  rw [followTrace, bind_of_ok (session_eq_ok w)]
  split
  · obtain ⟨w₁, h₁⟩ := hprint w
    exact ⟨_, bind_of_ok h₁⟩
  · exact ⟨_, rfl⟩

/-- Without limit and interrupt, a term whose run halts is evaluated. -/
theorem evaluate_of_run (hlimit : w.session.limit = .unlimited) (hinterrupt : w.interrupt = none)
    (hrun : Reduction.run w.session.environment .unbounded w.patience t = some r)
    (hr : r.outcome = .halted) : ∃ w₁, evaluate t w = .ok r w₁ := by
  have hbound : bound w = .ok none w := by
    rw [bound, bind_of_ok (session_eq_ok w), hlimit]
    rfl
  have hconclude : ∀ w, ∃ w₁, conclude t (some r) w = .ok r w₁ := by
    obtain ⟨last, steps, outcome⟩ := r
    cases hr
    exact fun w => ⟨_, rfl⟩
  rw [evaluate_eq, bind_of_ok (get_eq_ok w), bind_of_ok hbound, hinterrupt]
  obtain ⟨w₁, hfollow⟩ := followTrace_eq_ok
    (Reduction.trace w.session.environment .unbounded w.patience t).1 w
  rw [Reduction.run_eq_snd_trace] at hrun
  obtain ⟨w₂, h₂⟩ := hconclude w₁
  refine ⟨w₂, (bind_of_ok hfollow).trans ?_⟩
  rw [← h₂, ← hrun]
  rfl

end NormalOrder.Session
