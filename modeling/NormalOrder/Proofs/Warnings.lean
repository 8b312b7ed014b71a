import NormalOrder.Proofs.Failures

/-!
# What actions report

Apart from running statements, nothing that a session is asked to do touches what reports start
with, and nothing but a warning is reported before an action has ended or failed.
-/

namespace NormalOrder

def Event.reported? : Event → Option Text.Styled
  | printed _ => none
  | reported text => some text
  | logged _ => none

def Workspace.reports (w : Workspace) : List Text.Styled :=
  w.events.toList.filterMap Event.reported?

namespace Session

open NormalOrder.Action Statement

/-- Some reports have been added, all of them with a property. -/
def Adds (p : Text.Styled → Prop) (w w' : Workspace) : Prop :=
  ∃ added, w'.reports = w.reports ++ added ∧ ∀ r ∈ added, p r

namespace Adds

variable {p q : Text.Styled → Prop} {w w₁ w₂ : Workspace}

theorem none (h : w₁.reports = w.reports) : Adds p w w₁ :=
  ⟨[], by simp [h], by simp⟩

theorem one {r : Text.Styled} (h : w₁.reports = w.reports ++ [r]) (hr : p r) : Adds p w w₁ :=
  ⟨[r], h, by simpa using hr⟩

theorem trans (h : Adds p w w₁) (h' : Adds p w₁ w₂) : Adds p w w₂ := by
  obtain ⟨added, hreports, hadded⟩ := h
  obtain ⟨added', hreports', hadded'⟩ := h'
  refine ⟨added ++ added', ?_, List.forall_mem_append.2 ⟨hadded, hadded'⟩⟩
  rw [hreports', hreports, List.append_assoc]

theorem imp (h : Adds p w w₁) (hpq : ∀ r, p r → q r) : Adds q w w₁ := by
  obtain ⟨added, hreports, hadded⟩ := h
  exact ⟨added, hreports, fun r hr => hpq r (hadded r hr)⟩

end Adds

theorem reports_push (w : Workspace) (e : Event) :
    Workspace.reports { w with events := w.events.push e } = w.reports ++ e.reported?.toList := by
  simp only [Workspace.reports, Array.toList_push, List.filterMap_append]
  cases h : e.reported? <;> simp [h]

/-- The action leaves the reporter as it is, reports nothing but warnings and does not end the
program. -/
structure Warns {α : Type} (x : Action α) : Prop where
  reporter : Keeps (·.session.reporter) x
  reports : ∀ w, Adds (fun r => ∃ d, r = w.session.reporter.traceback.warning d) w (stateLeft (x w))
  stays : ∀ w code, failure? (x w) ≠ some (.exit code)

namespace Warns

variable {α β : Type}

theorem pure (a : α) : Warns (Pure.pure a) :=
  ⟨.pure a, fun _ => .none rfl, by rintro w code ⟨⟩⟩

theorem throw {e : Failure} (h : ∀ code, e ≠ .exit code) : Warns (MonadExcept.throw e : Action α) :=
  ⟨.throw e, fun _ => .none rfl, fun _ code hcode => h code (Option.some.inj hcode)⟩

theorem get : Warns (MonadState.get : Action Workspace) :=
  ⟨.get, fun _ => .none rfl, by rintro w code ⟨⟩⟩

theorem session : Warns Action.session :=
  ⟨.session, fun _ => .none rfl, by rintro w code ⟨⟩⟩

theorem modify {g : Workspace → Workspace}
    (hreporter : ∀ w, (g w).session.reporter = w.session.reporter)
    (hevents : ∀ w, (g w).events = w.events) : Warns (modify g : Action Unit) :=
  ⟨.modify hreporter, fun w => .none (congrArg (·.toList.filterMap Event.reported?) (hevents w)),
    by rintro w code ⟨⟩⟩

theorem emit {e : Event} (h : e.reported? = Option.none) : Warns (Action.emit e) := by
  refine ⟨.emit (fun _ _ => rfl) e, fun w => .none ?_, by rintro w code ⟨⟩⟩
  refine (reports_push w e).trans ?_
  rw [h]
  exact List.append_nil _

theorem warn (d : Diagnostic) : Warns (Action.warn d) := by
  refine ⟨.bind .session fun _ => .emit (fun _ _ => rfl) _, fun w => .one ?_ ⟨d, rfl⟩, ?_⟩
  · exact reports_push w _
  · rintro w code ⟨⟩

theorem bind {x : Action α} {f : α → Action β} (hx : Warns x) (hf : ∀ a, Warns (f a)) :
    Warns (x >>= f) := by
  refine ⟨hx.reporter.bind fun a => (hf a).reporter, ?_, ?_⟩
  · intro w
    have hfirst := hx.reports w
    cases hrun : x w with
    | ok a w₁ =>
      have hkept := hx.reporter.of_ok hrun
      have hrest := (hf a).reports w₁
      rw [hrun] at hfirst
      rw [hkept] at hrest
      rw [bind_of_ok hrun]
      exact hfirst.trans hrest
    | error e w₁ =>
      rw [hrun] at hfirst
      rw [bind_of_error hrun]
      exact hfirst
  · intro w code
    have hfirst := hx.stays w code
    cases hrun : x w with
    | ok a w₁ =>
      rw [bind_of_ok hrun]
      exact (hf a).stays w₁ code
    | error e w₁ =>
      rw [hrun] at hfirst
      rw [bind_of_error hrun]
      exact hfirst

theorem forM {γ : Type} {f : γ → Action Unit} (h : ∀ c, Warns (f c)) (cs : List γ) :
    Warns (cs.forM f) := by
  induction cs with
  | nil => exact pure ()
  | cons c cs ih => exact bind (h c) fun _ => ih

end Warns

theorem warns_bound : Warns bound := by
  refine .bind .session fun s => ?_
  cases s.limit with
  | unlimited => exact .pure none
  | steps count => exact .pure (some count)
  | blank => exact .throw fun _ => nofun

theorem warns_conclude (t : Term) (result? : Option Reduction.Result) :
    Warns (conclude t result?) := by
  rcases result? with - | ⟨last, steps, outcome⟩
  · exact .throw fun _ => nofun
  · refine .bind (.emit rfl) fun _ => ?_
    cases outcome with
    | halted => exact .pure _
    | limitReached => exact .bind (.warn _) fun _ => .pure _
    | cancelled => exact .bind (.warn _) fun _ => .pure _

theorem warns_followTrace (terms : List Term) : Warns (followTrace terms) := by
  refine .bind .session fun s => ?_
  split
  · exact .bind (.forM (fun _ => .emit rfl) terms) fun _ => .modify (fun _ => rfl) fun _ => rfl
  · exact .modify (fun _ => rfl) fun _ => rfl

theorem warns_evaluate (t : Term) : Warns (evaluate t) := by
  rw [evaluate_eq]
  refine .bind .get fun w => .bind warns_bound fun limit => ?_
  exact .bind (warns_followTrace _) fun _ => warns_conclude t _

theorem warns_define (name : String) (t : Term) : Warns (define name t) :=
  .bind .session fun _ => .bind (.emit rfl) fun _ => .modify (fun _ => rfl) fun _ => rfl

theorem warns_execute (line : String) (statement? : Except Fault Statement) :
    Warns (execute line statement?) := by
  rcases statement? with fault | (⟨name, t⟩ | t)
  · exact .throw fun _ => nofun
  · exact warns_define name t
  · exact .bind (warns_evaluate t) fun _ => .modify (fun _ => rfl) fun _ => rfl

theorem warns_flush : Warns flush :=
  .bind .session fun _ => .bind (.forM (fun _ => .emit rfl) _) fun _ =>
    .modify (fun _ => rfl) fun _ => rfl

theorem warns_pop : Warns pop := by
  refine .bind .session fun s => ?_
  cases s.results with
  | nil => exact .throw fun _ => nofun
  | cons result rest => exact .bind (.modify (fun _ => rfl) fun _ => rfl) fun _ => .pure _

theorem warns_step (t? : Option Term) : Warns (step t?) := by
  refine .bind (.modify (fun _ => rfl) fun _ => rfl) fun _ => .bind .session fun s => ?_
  cases s.current with
  | none => exact .throw fun _ => nofun
  | some t => exact .bind (.modify (fun _ => rfl) fun _ => rfl) fun _ => .pure _

theorem warns_save (path : String) : Warns (save path) := by
  refine .bind .session fun s => .bind .get fun w => ?_
  cases w.files.write path (Text.Utf8.encode (program s.environment)) with
  | error fault => cases fault <;> exact .throw fun _ => nofun
  | ok files => exact .bind (.modify (fun _ => rfl) fun _ => rfl) fun _ => .emit rfl

end Session

end NormalOrder
