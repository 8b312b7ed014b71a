import NormalOrder.Environment
import NormalOrder.Term.Substitution

/-!
# Reduction steps

A step contracts a redex `(λx. b) a`, or replaces a name that no abstraction around it binds by its
definition. It is made at the leftmost outermost place where one is possible.
-/

namespace NormalOrder.Reduction

/-- The definition of `name`, fit to stand below binders of the names in `bound`. -/
def expand (env : Environment) (bound : List String) (name : String) : Option Term :=
  (env.find? name).map fun d => d.protect (d.free.filter (· ∈ bound))

/-- One step of a term that stands below binders of the names in `bound`. -/
def stepUnder (env : Environment) (bound : List String) : Term → Option Term
  | .var x => if x ∈ bound then none else expand env bound x
  | .ref x => expand env bound x
  | .lam x b => (stepUnder env (x :: bound) b).map (.lam x)
  | .app (.lam x b) a => some (b.substitute x a)
  | .app f a =>
    match stepUnder env bound f with
    | some f' => some (.app f' a)
    | none => (stepUnder env bound a).map (.app f)

/-- One step, or nothing if the term is in normal form. -/
def step (env : Environment) (t : Term) : Option Term :=
  stepUnder env [] t

/-- The answers to up to `count` steps in a row; the last one is nothing if a normal form is met. -/
def steps (env : Environment) : Nat → Term → List (Option Term)
  | 0, _ => []
  | count + 1, t =>
    match step env t with
    | none => [none]
    | some next => some next :: steps env count next

end NormalOrder.Reduction
