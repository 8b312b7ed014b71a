import Mathlib.Logic.Function.Iterate
import NormalOrder.Proofs.Nameless.Unfolding

/-!
# Application to several arguments

An abstraction of several variables that is applied to as many arguments reduces to its body, with
the arguments assigned to the variables. So a combinator is followed by its named definition, and no
index is ever counted.
-/

namespace NormalOrder

open Relation

variable {κ : Type} {δ : κ → Option (Nameless κ)}

namespace Nameless

abbrev Reduces (δ : κ → Option (Nameless κ)) : Nameless κ → Nameless κ → Prop :=
  ReflTransGen (Contracts δ)

def applyAll (f : Nameless κ) (arguments : List (Nameless κ)) : Nameless κ :=
  arguments.foldl app f

theorem reduces_function {f g : Nameless κ} (a : Nameless κ) (h : Reduces δ f g) :
    Reduces δ (app f a) (app g a) :=
  h.lift (fun t => app t a) fun _ _ => contracts_function a

theorem reduces_argument (f : Nameless κ) {a b : Nameless κ} (h : Reduces δ a b) :
    Reduces δ (app f a) (app f b) :=
  h.lift (app f) fun _ _ => contracts_argument f

theorem reduces_applyAll {f g : Nameless κ} (h : Reduces δ f g) (arguments : List (Nameless κ)) :
    Reduces δ (f.applyAll arguments) (g.applyAll arguments) := by
  induction arguments generalizing f g with
  | nil => exact h
  | cons a arguments ih => exact ih (reduces_function a h)

/-- A function that does by reduction what `k` applications of another do: `n` applications of it
are `n * k` of the other. -/
theorem reduces_iterate {f g : Nameless κ} {k : Nat}
    (h : ∀ x, Reduces δ (app g x) ((app f)^[k] x)) (n : Nat) (x : Nameless κ) :
    Reduces δ ((app g)^[n] x) ((app f)^[n * k] x) := by
  induction n with
  | zero =>
    rw [Nat.zero_mul]
    exact .refl
  | succ n ih =>
    rw [Function.iterate_succ_apply', Nat.succ_mul, Nat.add_comm, Function.iterate_add_apply]
    exact (reduces_argument g ih).trans (h _)

end Nameless

open Nameless

def Term.lams (params : List String) (body : Term) : Term :=
  params.foldr .lam body

/-- The arguments are assigned to the variables one after another. -/
def Assignment.enter (ρ : Assignment κ) : List String → List (Nameless κ) → Assignment κ
  | x :: params, a :: arguments => enter (Function.update ρ x a) params arguments
  | _, _ => ρ

/-- An abstraction of several variables takes all its arguments. -/
theorem Term.reduces_lams (ν : Naming κ) (ρ : Assignment κ) (body : Term) {params : List String}
    {arguments : List (Nameless κ)} (h : params.length = arguments.length) :
    Reduces δ (((lams params body).assign ν ρ).applyAll arguments)
      (body.assign ν (ρ.enter params arguments)) := by
  induction params generalizing ρ arguments with
  | nil =>
    cases arguments with
    | nil => exact .refl
    | cons a arguments => cases h
  | cons x params ih =>
    cases arguments with
    | nil => cases h
    | cons a arguments =>
      have hfirst : Reduces δ (.app ((lams (x :: params) body).assign ν ρ) a)
          ((lams params body).assign ν (Function.update ρ x a)) := by
        rw [← instantiate_assign_below]
        exact .single ⟨[], .beta _ _⟩
      exact (reduces_applyAll hfirst arguments).trans (ih _ (Nat.succ.inj h))

end NormalOrder
