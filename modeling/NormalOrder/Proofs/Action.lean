import NormalOrder.Session.Evaluation

/-!
# What actions do

An action that is made of two succeeds if both do, one after the other. A part of the workspace that
both leave as it is stays so, even if one of them fails, since an action that fails keeps what it
has done so far.
-/

namespace NormalOrder.Action

variable {α β γ : Type}

section Bind

-- Turns of the shell are made of parts in the same way, so the state is left open here.
variable {σ : Type} {x : EStateM Failure σ α} {f : α → EStateM Failure σ β} {w w' : σ}

theorem bind_of_ok {a : α} (h : x w = .ok a w') : (x >>= f) w = f a w' := by
  change EStateM.bind x f w = _
  simp only [EStateM.bind, h]

theorem bind_of_error {e : Failure} (h : x w = .error e w') : (x >>= f) w = .error e w' := by
  change EStateM.bind x f w = _
  simp only [EStateM.bind, h]

theorem bind_eq_ok {b : β} (h : (x >>= f) w = .ok b w') :
    ∃ a w₁, x w = .ok a w₁ ∧ f a w₁ = .ok b w' := by
  cases hx : x w with
  | ok a w₁ =>
    rw [bind_of_ok hx] at h
    exact ⟨a, w₁, rfl, h⟩
  | error e w₁ =>
    rw [bind_of_error hx] at h
    cases h

theorem bind_eq_error {e : Failure} (h : (x >>= f) w = .error e w') :
    x w = .error e w' ∨ ∃ a w₁, x w = .ok a w₁ ∧ f a w₁ = .error e w' := by
  cases hx : x w with
  | ok a w₁ =>
    rw [bind_of_ok hx] at h
    exact .inr ⟨a, w₁, rfl, h⟩
  | error e₁ w₁ =>
    rw [bind_of_error hx] at h
    cases h
    exact .inl rfl

theorem forM_cons_of_ok {g : α → EStateM Failure σ Unit} {a : α} {u : Unit} (h : g a w = .ok u w')
    (as : List α) : (a :: as).forM g w = as.forM g w' :=
  bind_of_ok h

theorem forM_cons_of_error {g : α → EStateM Failure σ Unit} {a : α} {e : Failure}
    (h : g a w = .error e w') (as : List α) : (a :: as).forM g w = .error e w' :=
  bind_of_error h

/-- Where something that is done for one member of a list after another fails. -/
theorem forM_eq_error {g : α → EStateM Failure σ Unit} {as : List α} {e : Failure}
    (h : as.forM g w = .error e w') :
    ∃ front a rest w₁, as = front ++ a :: rest ∧ front.forM g w = .ok () w₁ ∧
      g a w₁ = .error e w' := by
  induction as generalizing w with
  | nil => cases h
  | cons a as ih =>
    rcases bind_eq_error h with hfirst | ⟨_, w₁, hfirst, hrest⟩
    · exact ⟨[], a, as, w, rfl, rfl, hfirst⟩
    · obtain ⟨front, b, rest, w₂, rfl, hfront, hb⟩ := ih hrest
      exact ⟨a :: front, b, rest, w₂, rfl, (bind_of_ok hfirst).trans hfront, hb⟩

end Bind

/-- The state that is left, whether or not there was a failure. -/
def stateLeft {σ : Type} : EStateM.Result Failure σ α → σ
  | .ok _ w => w
  | .error _ w => w

def failure? {σ : Type} : EStateM.Result Failure σ α → Option Failure
  | .ok _ _ => none
  | .error e _ => some e

theorem exists_ok {σ : Type} {r : EStateM.Result Failure σ α} (h : failure? r = none) :
    ∃ a w, r = .ok a w := by
  cases r with
  | ok a w => exact ⟨a, w, rfl⟩
  | error e w => cases h

theorem exists_error {σ : Type} {r : EStateM.Result Failure σ α} {e : Failure}
    (h : failure? r = some e) : ∃ w, r = .error e w := by
  cases r with
  | ok a w => cases h
  | error e' w =>
    cases h
    exact ⟨w, rfl⟩

variable {x : Action α} {w w' : Workspace}

theorem get_eq_ok (w : Workspace) : (get : Action Workspace) w = .ok w w :=
  rfl

theorem session_eq_ok (w : Workspace) : Action.session w = .ok w.session w :=
  rfl

def after (action : Action α) (w : Workspace) : Workspace :=
  match action w with
  | .ok _ w => w
  | .error _ w => w

theorem after_of_ok {a : α} (h : x w = .ok a w') : x.after w = w' := by
  rw [after, h]

/-- A part of the state is left as it is, whether or not there is a failure. -/
def Keeps {σ : Type} (part : σ → γ) (x : EStateM Failure σ α) : Prop :=
  ∀ w, part (stateLeft (x w)) = part w

namespace Keeps

section State

variable {σ : Type} {part : σ → γ}

theorem pure (a : α) : Keeps part (Pure.pure a) :=
  fun _ => rfl

theorem throw (e : Failure) : Keeps part (MonadExcept.throw e : EStateM Failure σ α) :=
  fun _ => rfl

theorem get : Keeps part (MonadState.get : EStateM Failure σ σ) :=
  fun _ => rfl

theorem modify {g : σ → σ} (h : ∀ w, part (g w) = part w) :
    Keeps part (modify g : EStateM Failure σ Unit) :=
  h

theorem stateLeft_bind {f : α → EStateM Failure σ β} (hf : ∀ a, Keeps part (f a))
    (x : EStateM Failure σ α) (w : σ) :
    part (stateLeft ((x >>= f) w)) = part (stateLeft (x w)) := by
  cases hrun : x w with
  | ok a w₁ =>
    rw [bind_of_ok hrun]
    exact hf a w₁
  | error e w₁ =>
    rw [bind_of_error hrun]
    rfl

theorem bind {x : EStateM Failure σ α} {f : α → EStateM Failure σ β} (hx : Keeps part x)
    (hf : ∀ a, Keeps part (f a)) : Keeps part (x >>= f) :=
  fun w => (stateLeft_bind hf x w).trans (hx w)

theorem forM {δ : Type} {g : δ → EStateM Failure σ Unit} (h : ∀ d, Keeps part (g d)) (ds : List δ) :
    Keeps part (ds.forM g) := by
  induction ds with
  | nil => exact pure ()
  | cons d ds ih => exact bind (h d) fun _ => ih

theorem of_ok {x : EStateM Failure σ α} {w w' : σ} {a : α} (h : Keeps part x)
    (hx : x w = .ok a w') :
    part w' = part w := by
  have hw := h w
  rw [hx] at hw
  exact hw

theorem of_error {x : EStateM Failure σ α} {w w' : σ} {e : Failure} (h : Keeps part x)
    (hx : x w = .error e w') : part w' = part w := by
  have hw := h w
  rw [hx] at hw
  exact hw

end State

variable {part : Workspace → γ}

theorem after (h : Keeps part x) (w : Workspace) : part (x.after w) = part w := by
  rw [Action.after]
  split
  · next hx => exact h.of_ok hx
  · next hx => exact h.of_error hx

theorem session : Keeps part Action.session :=
  fun _ => rfl

/-- Events are all that an event changes. -/
theorem emit (h : ∀ w events, part { w with events } = part w) (e : Event) :
    Keeps part (Action.emit e) :=
  modify fun w => h w _

end Keeps

end NormalOrder.Action

