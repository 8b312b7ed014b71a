import Mathlib.Data.Nat.Factorial.Basic
import NormalOrder.Proofs.Prelude.Arithmetic

/-!
# Recursion through a fixed point

The combinator `Y` of the prelude has no normal form: below its abstraction it goes on forever to
apply the variable. A function that is defined by it still comes to an end, since only as much of it
is unfolded as the argument asks for. The factorial is such a function.
-/

namespace NormalOrder

section Endless

variable {p : Nameless String → Prop} {env : Environment}

/-- Terms that the leftmost outermost contraction leads from one to another have no normal form,
whatever the order of contractions. -/
theorem Nameless.not_normal_of_endless
    (hp : ∀ t, p t → ∃ u, t.contract? env.definitions = some u ∧ p u)
    {t n : Nameless String} (ht : p t) (h : Reduces env.definitions t n) :
    ¬n.Normal env.definitions := by
  intro hn
  have closed : ClosedDefinitions env.definitions := fun _ _ => env.scoped_definitions
  have hlast : p n := by
    have hleftmost := leftmostSteps_of_contracts closed h hn
    clear h hn
    induction hleftmost with
    | refl => exact ht
    | tail _ hstep ih =>
      obtain ⟨u, hu, hpu⟩ := hp _ ih
      rw [hu] at hstep
      cases hstep
      exact hpu
  obtain ⟨u, hu, -⟩ := hp n hlast
  rw [(contract?_eq_none_iff n).2 hn] at hu
  cases hu

/-- Nor do their runs come to an end. -/
theorem Reduction.run_eq_none_of_endless
    (hp : ∀ t, p t → ∃ u, t.contract? env.definitions = some u ∧ p u) {t : Term}
    (ht : p t.globalForm) (patience : Nat) : run env .unbounded patience t = none := by
  rw [run_unbounded]
  generalize 0 = steps
  induction patience generalizing t steps with
  | zero => rfl
  | succ patience ih =>
    obtain ⟨u, hu, hpu⟩ := hp _ ht
    obtain ⟨next, hstep, rfl⟩ := exists_step_of_contract? hu
    rw [runFrom, move_unbounded, hstep]
    exact ih hpu (steps + 1)

end Endless

namespace Prelude

open Nameless Reduction Term

/-- The half of a fixed point of `F` that is applied to itself. -/
def half (F : Nameless String) : Nameless String :=
  (lams ["x"] (app (var "f") (app (var "x") (var "x")))).assign .shared
    (Assignment.enter .const ["f"] [F])

def fixedPoint (F : Nameless String) : Nameless String :=
  .app (half F) (half F)

theorem contract?_fixedPoint (F : Nameless String) :
    (fixedPoint F).contract? environment.definitions = some (.app F (fixedPoint F)) := by
  have h := instantiate_assign_below .shared (Assignment.enter .const ["f"] [F]) "x"
    (app (var "f") (app (var "x") (var "x"))) (half F)
  exact congrArg some h

theorem yields_fixedPoint (F : Nameless String) :
    Yields (.applyAll (.const "Y") [F]) (fixedPoint F) := by
  have h := yields_body "Y" [F] rfl rfl
  exact h

theorem yields_unrolled (F : Nameless String) :
    Yields (fixedPoint F) (.app F (fixedPoint F)) := by
  change Yields (.applyAll (half F) [half F]) _
  exact reduces_lams .shared _ _ rfl

/-- What `Y` becomes: a fixed point of its variable that has been unrolled some times. -/
inductive Unrolled : Nameless String → Prop
  | name : Unrolled (.const "Y")
  | body (k : Nat) : Unrolled (.lam ((Nameless.app (.bound 0))^[k] (fixedPoint (.bound 0))))

theorem contract?_unrolled (k : Nat) :
    ((Nameless.app (.bound 0))^[k] (fixedPoint (.bound 0))).contract? environment.definitions =
      some ((Nameless.app (.bound 0))^[k + 1] (fixedPoint (.bound 0))) := by
  induction k with
  | zero => exact contract?_fixedPoint _
  | succ k ih =>
    rw [Function.iterate_succ_apply', contract?_app _ rfl, ih,
      Function.iterate_succ_apply' _ (k + 1)]
    rfl

theorem exists_unrolled (t : Nameless String) (h : Unrolled t) :
    ∃ u, t.contract? environment.definitions = some u ∧ Unrolled u := by
  cases h with
  | name =>
    refine ⟨_, ?_, .body 0⟩
    rw [Nameless.contract?, Environment.definitions, find?_environment]
    rfl
  | body k =>
    refine ⟨_, ?_, .body (k + 1)⟩
    rw [Nameless.contract?, contract?_unrolled]
    rfl

section Factorial

def factorialStep : Term :=
  lams ["r", "n"]
    (applyAll (var "if")
      [app (var "iszero") (var "n"), var "one",
        applyAll (var "mult") [var "n", app (var "r") (app (var "pred") (var "n"))]])

theorem yields_factorialStep (r t : Nameless String) :
    Yields (factorialStep.globalForm.applyAll [r, t])
      (.applyAll (.const "if")
        [.applyAll (.const "iszero") [t], .const "one",
          .applyAll (.const "mult") [t, .app r (.applyAll (.const "pred") [t])]]) := by
  rw [globalForm, nameless_eq_assign, Assignment.ofBinders_nil]
  exact reduces_lams .shared _ _ rfl

/-- One round of the recursion, with the rest of it left as it is. -/
theorem yields_round {n : Nat} {t : Nameless String} (h : Represents t n) :
    Yields (.app (fixedPoint factorialStep.globalForm) t)
      (if decide (n = 0) then .const "one" else
        .applyAll (.const "mult")
          [t, .app (fixedPoint factorialStep.globalForm) (.applyAll (.const "pred") [t])]) :=
  (reduces_function t (yields_unrolled _)).trans
    ((yields_factorialStep _ t).trans (yields_if h.iszero _ _))

theorem represents_factorial {n : Nat} {t : Nameless String} (h : Represents t n) :
    Represents (.app (fixedPoint factorialStep.globalForm) t) n.factorial := by
  -- The induction is on the number: the fixed point stays the same and is never reduced by itself.
  induction n generalizing t with
  | zero => exact represents_one.of_yields (yields_round h)
  | succ n ih =>
    have hrest : Represents _ n.factorial := ih h.pred
    rw [Nat.factorial_succ]
    exact (h.mult hrest).of_yields (yields_round h)

theorem Represents.fact {n : Nat} {t : Nameless String} (h : Represents t n) :
    Represents (.applyAll (.const "fact") [t]) n.factorial := by
  have hdefinition : Yields (.const "fact") (.applyAll (.const "Y") [factorialStep.globalForm]) :=
    yields_definition (t := app (var "Y") factorialStep) rfl
  exact (represents_factorial h).of_yields
    (reduces_function t (hdefinition.trans (yields_fixedPoint _)))

/-- The factorial of a numeral, applied to `f` and `x`, halts with that many applications, although
the combinator by which it is defined has no normal form and its own run never ends. -/
theorem factorial_halts_by_fixed_point (n : Nat) (f x : String) (hf : f ∉ environment.names)
    (hx : x ∉ environment.names) :
    Halts environment (applyAll (var "fact") [church n, var f, var x]) (· = times f x n.factorial) ∧
    (∀ u, Yields (var "Y").globalForm u → ¬u.Normal environment.definitions) ∧
    ∀ patience, run environment .unbounded patience (var "Y") = none := by
  refine ⟨halts_times "fact" [n] (represents_church n).fact hf hx, ?_, ?_⟩
  · exact fun u hu => not_normal_of_endless exists_unrolled .name hu
  · exact fun patience => run_eq_none_of_endless (t := var "Y") exists_unrolled .name patience

theorem factorial_halts_by_fixed_point_three :
    ("r" ∉ environment.names ∧ "f" ∉ environment.names) ∧
    Halts environment (applyAll (var "fact") [church 3, var "r", var "f"])
      (· = times "r" "f" 6) := by
  have hnames : "r" ∉ environment.names ∧ "f" ∉ environment.names := by
    rw [Roster.names, entries_environment]
    decide +kernel
  exact ⟨hnames, (factorial_halts_by_fixed_point 3 "r" "f" hnames.1 hnames.2).1⟩

end Factorial

end Prelude

end NormalOrder
