import NormalOrder.Proofs.Failures
import NormalOrder.Proofs.Indentation

/-!
# Statements do not look at the reporter

Two workspaces are alike if they differ in the reporter, the files and the log only. A statement
that succeeds in one of them succeeds in the other, prints the same and leaves alike workspaces,
even if it is run there as another line of another file or with another indentation.
-/

namespace NormalOrder

def Event.printed? : Event → Option String
  | printed text => some text
  | reported _ => none
  | logged _ => none

/-- All that has been printed, apart from reports and the log. -/
def Workspace.printed (w : Workspace) : List String :=
  w.events.toList.filterMap Event.printed?

namespace Session

open NormalOrder.Action Statement

/-- The workspaces have the same session, apart from the reporter, and have printed the same. -/
structure Alike (w v : Workspace) : Prop where
  session : ∃ reporter, v.session = { w.session with reporter }
  interrupt : v.interrupt = w.interrupt
  patience : v.patience = w.patience
  printed : v.printed = w.printed

/-- Where the first action succeeds, the second one does so in alike workspaces, with the same
value. -/
def Simulates {α : Type} (x y : Action α) : Prop :=
  ∀ w v a w₁, Alike w v → x w = .ok a w₁ → ∃ v₁, y v = .ok a v₁ ∧ Alike w₁ v₁

namespace Simulates

variable {α β : Type}

theorem pure (a : α) : Simulates (Pure.pure a) (Pure.pure a) := by
  rintro w v _ _ hwv ⟨⟩
  exact ⟨v, rfl, hwv⟩

theorem throw (e : Failure) (y : Action α) : Simulates (MonadExcept.throw e) y := by
  rintro w v _ _ hwv ⟨⟩

theorem bind {x y : Action α} {f g : α → Action β} (hx : Simulates x y)
    (hf : ∀ a, Simulates (f a) (g a)) : Simulates (x >>= f) (y >>= g) := by
  intro w v b w₂ hwv h
  obtain ⟨a, w₁, h₁, h₂⟩ := bind_eq_ok h
  obtain ⟨v₁, hv₁, hwv₁⟩ := hx w v a w₁ hwv h₁
  obtain ⟨v₂, hv₂, hwv₂⟩ := hf a w₁ v₁ b w₂ hwv₁ h₂
  exact ⟨v₂, (bind_of_ok hv₁).trans hv₂, hwv₂⟩

theorem forM {γ : Type} {f g : γ → Action Unit} (h : ∀ c, Simulates (f c) (g c)) (cs : List γ) :
    Simulates (cs.forM f) (cs.forM g) := by
  induction cs with
  | nil => exact pure ()
  | cons c cs ih => exact bind (h c) fun _ => ih

theorem get {f g : Workspace → Action β} (h : ∀ w v, Alike w v → Simulates (f w) (g v)) :
    Simulates (MonadState.get >>= f) (MonadState.get >>= g) :=
  fun w v b w₁ hwv hf => h w v hwv w v b w₁ hwv hf

theorem session {f g : Session → Action β}
    (h : ∀ s reporter, Simulates (f s) (g { s with reporter })) :
    Simulates (Action.session >>= f) (Action.session >>= g) := by
  intro w v b w₁ hwv hf
  obtain ⟨reporter, hsession⟩ := hwv.session
  have hg := h w.session reporter
  rw [← hsession] at hg
  exact hg w v b w₁ hwv hf

/-- Reports and log records may differ. -/
theorem emit {e e' : Event} (h : e'.printed? = e.printed?) :
    Simulates (Action.emit e) (Action.emit e') := by
  rintro w v _ _ hwv ⟨⟩
  refine ⟨_, rfl, hwv.session, hwv.interrupt, hwv.patience, ?_⟩
  have hprinted := hwv.printed
  simp only [Workspace.printed] at hprinted ⊢
  rw [Array.toList_push, Array.toList_push, List.filterMap_append, List.filterMap_append, hprinted]
  simp only [List.filterMap_cons, List.filterMap_nil, h]

theorem modifySession {f g : Session → Session}
    (h : ∀ s reporter, ∃ reporter', g { s with reporter } = { f s with reporter := reporter' }) :
    Simulates (Action.modifySession f) (Action.modifySession g) := by
  rintro w v _ _ hwv ⟨⟩
  obtain ⟨reporter, hsession⟩ := hwv.session
  refine ⟨_, rfl, ?_, hwv.interrupt, hwv.patience, hwv.printed⟩
  simp only [hsession]
  exact h w.session reporter

end Simulates

theorem simulates_modifyTraceback (f g : Traceback → Traceback) :
    Simulates (modifyTraceback f) (modifyTraceback g) :=
  .modifySession fun _ _ => ⟨_, rfl⟩

theorem simulates_bound : Simulates bound bound := by
  refine .session fun s reporter => ?_
  have hlimit : Session.limit { s with reporter } = s.limit := rfl
  rw [hlimit]
  cases s.limit with
  | unlimited => exact .pure none
  | steps count => exact .pure (some count)
  | blank => exact .throw _ _

/-- The interrupt of alike workspaces is the same, and stays so. -/
theorem simulates_countDown (count : Nat → Option Nat) :
    Simulates (modify fun w => { w with interrupt := w.interrupt.bind count })
      (modify fun w => { w with interrupt := w.interrupt.bind count }) := by
  rintro w v _ _ hwv ⟨⟩
  refine ⟨_, rfl, hwv.session, ?_, hwv.patience, hwv.printed⟩
  simp only [hwv.interrupt]

theorem simulates_followTrace (terms : List Term) :
    Simulates (followTrace terms) (followTrace terms) := by
  refine .session fun s reporter => ?_
  dsimp only
  split
  · exact .bind (.forM (fun _ => .emit rfl) terms) fun _ => simulates_countDown _
  · exact simulates_countDown _

theorem simulates_conclude (t : Term) (result? : Option Reduction.Result) :
    Simulates (conclude t result?) (conclude t result?) := by
  rcases result? with - | ⟨last, steps, outcome⟩
  · exact .throw _ _
  · have hwarn : ∀ d, Simulates (warn d) (warn d) := fun d => .session fun _ _ => .emit rfl
    refine .bind (.emit rfl) fun _ => ?_
    cases outcome with
    | halted => exact .pure _
    | limitReached => exact .bind (hwarn _) fun _ => .pure _
    | cancelled => exact .bind (hwarn _) fun _ => .pure _

theorem simulates_evaluate (t : Term) : Simulates (evaluate t) (evaluate t) := by
  rw [evaluate_eq]
  refine .get fun w v hwv => .bind simulates_bound fun limit => ?_
  obtain ⟨reporter, hsession⟩ := hwv.session
  rw [hsession, hwv.interrupt, hwv.patience]
  exact .bind (simulates_followTrace _) fun _ => simulates_conclude t _

theorem simulates_define (name : String) (t : Term) : Simulates (define name t) (define name t) :=
  .session fun _ _ => .bind (.emit rfl) fun _ => .modifySession fun _ reporter => ⟨reporter, rfl⟩

theorem simulates_execute (line line' : String) (statement? : Except Fault Statement) :
    Simulates (execute line statement?) (execute line' statement?) := by
  rcases statement? with fault | (⟨name, t⟩ | t)
  · exact .throw _ _
  · exact simulates_define name t
  · exact .bind (simulates_evaluate t) fun _ => .modifySession fun _ reporter => ⟨reporter, rfl⟩

/-- A statement can be run without its indentation, and as any line of any file. -/
theorem simulates_add {line line' : String} (h : Text.Indents line line') (number number' : Int)
    (path path' : String) : Simulates (add line number path) (add line' number' path') := by
  have hblank := h.isBlankText
  cases hline : Text.isBlankText line with
  | true =>
    intro w v a w₁ hwv hadd
    rw [add_of_blank number path hline] at hadd
    cases hadd
    exact ⟨v, add_of_blank number' path' (hblank.trans hline) v, hwv⟩
  | false =>
    rw [add_of_not_blank number path hline, add_of_not_blank number' path' (hblank.trans hline)]
    refine .bind (simulates_modifyTraceback _ _) fun _ => .bind ?_ fun _ =>
      simulates_modifyTraceback _ _
    cases hparse : parse line with
    | error fault => exact .throw _ _
    | ok statement =>
      rw [h.parse hparse]
      exact simulates_execute line line' _

theorem simulates_flush : Simulates flush flush :=
  .session fun s _ => .bind (.forM (fun _ => .emit rfl) s.results) fun _ =>
    .modifySession fun _ reporter => ⟨reporter, rfl⟩

theorem simulates_perform {text text' : String} (h : Text.Indents text text') (number number' : Nat)
    (path path' : String) :
    Simulates (perform path ⟨text, number⟩) (perform path' ⟨text', number'⟩) :=
  .bind (simulates_add h number number' path path') fun _ => simulates_flush

end Session

end NormalOrder
