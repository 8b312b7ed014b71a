import NormalOrder.Proofs.Nameless.Standardization
import NormalOrder.Proofs.Step
import NormalOrder.Reduction.Run

/-!
# Runs find normal forms

A run without a limit and without cancellation follows the leftmost outermost contractions of the
nameless form, so it ends at a normal form whenever the form of the term has one, in whatever order
that is reached.
-/

namespace NormalOrder.Reduction

open Relation

def Bounds.unbounded : Bounds := ⟨none, none⟩

theorem move_unbounded (env : Environment) (t : Term) (steps : Nat) :
    move env .unbounded t steps =
      match step env t with
      | none => .stop .halted
      | some next => .go next := rfl

theorem exists_step_of_contract? {env : Environment} {t : Term} {u : Nameless String}
    (h : t.globalForm.contract? env.definitions = some u) :
    ∃ next, step env t = some next ∧ next.globalForm = u := by
  rw [← map_step] at h
  exact Option.map_eq_some_iff.1 h

/-- A run from a term whose form reaches a normal form by leftmost outermost contractions. -/
theorem runFrom_of_leftmostSteps {env : Environment} {t : Term} {n : Nameless String}
    (h : Nameless.LeftmostSteps env.definitions t.globalForm n) (hn : n.Normal env.definitions)
    (steps : Nat) :
    ∃ r looks, r.outcome = .halted ∧ r.term.globalForm = n ∧
      ∀ fuel, looks ≤ fuel → runFrom env .unbounded fuel t steps = some r := by
  generalize hm : t.globalForm = m at h
  induction h using ReflTransGen.head_induction_on generalizing t steps with
  | refl =>
    refine ⟨⟨t, steps, .halted⟩, 1, rfl, hm, ?_⟩
    intro fuel hfuel
    obtain ⟨fuel, rfl⟩ := Nat.exists_eq_add_of_le' hfuel
    have hstep : step env t = none := (step_eq_none_iff env t).2 (hm ▸ hn)
    rw [runFrom, move_unbounded, hstep]
  | head hcontract _ ih =>
    subst hm
    obtain ⟨next, hstep, hnext⟩ := exists_step_of_contract? hcontract
    obtain ⟨r, looks, houtcome, hterm, hrun⟩ := ih (steps + 1) hnext
    refine ⟨r, looks + 1, houtcome, hterm, ?_⟩
    intro fuel hfuel
    obtain ⟨fuel, rfl⟩ := Nat.exists_eq_add_of_le' (Nat.le_trans (Nat.le_add_left 1 looks) hfuel)
    rw [runFrom, move_unbounded, hstep]
    exact hrun fuel (by omega)

theorem run_unbounded (env : Environment) (patience : Nat) (t : Term) :
    run env .unbounded patience t = runFrom env .unbounded patience t 0 := rfl

theorem run_of_contracts {env : Environment} {t : Term} {n : Nameless String}
    (h : ReflTransGen (Nameless.Contracts env.definitions) t.globalForm n)
    (hn : n.Normal env.definitions) :
    ∃ r looks, r.outcome = .halted ∧ r.term.globalForm = n ∧
      ∀ patience, looks ≤ patience → run env .unbounded patience t = some r := by
  have closed : Nameless.ClosedDefinitions env.definitions := fun _ _ => env.scoped_definitions
  simp only [run_unbounded]
  exact runFrom_of_leftmostSteps (Nameless.leftmostSteps_of_contracts closed h hn) hn 0

/-- If contractions in any order lead from the form of a term to a normal form, then the run of the
term halts with that form, and no other normal form can be reached. -/
theorem run_halts_at_normal_form (env : Environment) (t : Term) (n : Nameless String)
    (h : ReflTransGen (Nameless.Contracts env.definitions) t.globalForm n)
    (hn : n.Normal env.definitions) :
    (∃ r looks, r.outcome = .halted ∧ r.term.globalForm = n ∧
      ∀ patience, looks ≤ patience → run env .unbounded patience t = some r) ∧
    ∀ m, ReflTransGen (Nameless.Contracts env.definitions) t.globalForm m →
      m.Normal env.definitions → m = n := by
  obtain ⟨r, looks, houtcome, hterm, hrun⟩ := run_of_contracts h hn
  refine ⟨⟨r, looks, houtcome, hterm, hrun⟩, ?_⟩
  intro m hm hnormal
  obtain ⟨r', looks', -, hterm', hrun'⟩ := run_of_contracts hm hnormal
  -- Both are the result of the same run.
  have hsame : r' = r := by
    have h₁ := hrun (looks + looks') (Nat.le_add_right looks looks')
    have h₂ := hrun' (looks + looks') (Nat.le_add_left looks' looks)
    exact Option.some.inj (h₂.symm.trans h₁)
  rw [← hterm', ← hterm, hsame]

/-- An argument that is its own definition is dropped, even if it has been unfolded before. -/
theorem run_halts_at_normal_form_beside_loop :
    let env : Environment := Roster.ofList [("loop", .var "loop")]
    let t : Term := .app (.app (.lam "x" (.lam "y" (.var "x"))) (.var "y")) (.var "loop")
    (ReflTransGen (Nameless.Contracts env.definitions) t.globalForm (.const "y") ∧
      Nameless.Normal env.definitions (.const "y")) ∧
    ∃ r looks, r.outcome = .halted ∧ r.term.globalForm = .const "y" ∧
      ∀ patience, looks ≤ patience → run env .unbounded patience t = some r := by
  intro env t
  have hreach : ReflTransGen (Nameless.Contracts env.definitions) t.globalForm (.const "y") :=
    .head ⟨[.argument], .argument _ (.delta rfl)⟩
      (.head ⟨[.function], .function _ (.beta _ _)⟩ (.single ⟨[], .beta _ _⟩))
  have hnormal : Nameless.Normal env.definitions (.const "y") := rfl
  exact ⟨⟨hreach, hnormal⟩, (run_halts_at_normal_form env t _ hreach hnormal).1⟩

end NormalOrder.Reduction
