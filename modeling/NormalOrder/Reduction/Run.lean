import NormalOrder.Reduction.Step

/-!
# Runs

A run makes steps until the term is in normal form, a limit on the number of steps is reached, or it
is cancelled. Limit and cancellation are looked at between steps, in this order; at the limit, a
term in normal form still counts as such.

A term need not have a normal form, so a run takes the number of times it may look at a term. A run
with a limit never needs more than `Bounds.looks` of them.
-/

namespace NormalOrder.Reduction

inductive Outcome
  | halted
  | limitReached
  | cancelled
deriving DecidableEq, Repr

def Outcome.describe : Outcome → String
  | halted => "halted"
  | limitReached => "step limit reached"
  | cancelled => "cancelled"

structure Result where
  /-- The last term reached. -/
  term : Term
  steps : Nat
  outcome : Outcome
deriving DecidableEq, Repr

/-- A flag that asks a run to stop. It stays raised until it is lowered. -/
structure CancelFlag where
  raised : Bool := false
deriving DecidableEq, Repr

namespace CancelFlag

def cancel (_ : CancelFlag) : CancelFlag := ⟨true⟩

def reset (_ : CancelFlag) : CancelFlag := ⟨false⟩

end CancelFlag

/-- What ends a run before a normal form. -/
structure Bounds where
  /-- The number of steps at which a run ends. -/
  limit : Option Int := none
  /-- The number of steps after which the flag is raised. -/
  cancelAfter : Option Nat := none

/-- How many steps an evaluation may take, as it is set. -/
inductive Limit
  | unlimited
  | steps (count : Int)
  /-- A limit that was asked for without a value. It can be shown, but nothing can be evaluated
  under it. -/
  | blank
deriving DecidableEq, Repr

namespace Limit

/-- The limit when none is asked for. -/
def default : Limit := .steps 10000

/-- Zero stands for no limit. -/
def ofNat : Nat → Limit
  | 0 => unlimited
  | n + 1 => steps (n + 1)

def describe : Limit → String
  | unlimited => "none"
  | steps count => toString count
  | blank => "[]"

end Limit

namespace Bounds

def limitReached (b : Bounds) (steps : Nat) : Bool :=
  match b.limit with
  | some limit => limit ≤ steps
  | none => false

/-- The flag as a run finds it after some steps. It is raised once, and nobody lowers it during the
run. -/
def flag (b : Bounds) (steps : Nat) : CancelFlag :=
  match b.cancelAfter with
  | some n => if n ≤ steps then CancelFlag.cancel {} else {}
  | none => {}

def cancelled (b : Bounds) (steps : Nat) : Bool :=
  (b.flag steps).raised

/-- How many times a run looks at a term at most; `patience` times when there is no limit. -/
def looks (b : Bounds) (patience : Nat) : Nat :=
  match b.limit with
  | some limit => limit.toNat + 1
  | none => patience

end Bounds

/-- What happens to a term after some steps. -/
inductive Move
  | stop (outcome : Outcome)
  | go (next : Term)

def move (env : Environment) (b : Bounds) (t : Term) (steps : Nat) : Move :=
  if b.limitReached steps then
    .stop (if (step env t).isNone then .halted else .limitReached)
  else if b.cancelled steps then .stop .cancelled
  else
    match step env t with
    | none => .stop .halted
    | some next => .go next

/-- The result of a run that has made `steps` steps, unless it looks at more than `fuel` terms. -/
def runFrom (env : Environment) (b : Bounds) : Nat → Term → Nat → Option Result
  | 0, _, _ => none
  | fuel + 1, t, steps =>
    match move env b t steps with
    | .stop outcome => some ⟨t, steps, outcome⟩
    | .go next => runFrom env b fuel next (steps + 1)

/-- The terms a run goes through after the first, with its result. -/
def traceFrom (env : Environment) (b : Bounds) : Nat → Term → Nat → List Term × Option Result
  | 0, _, _ => ([], none)
  | fuel + 1, t, steps =>
    match move env b t steps with
    | .stop outcome => ([], some ⟨t, steps, outcome⟩)
    | .go next =>
      let rest := traceFrom env b fuel next (steps + 1)
      (next :: rest.1, rest.2)

def run (env : Environment) (b : Bounds) (patience : Nat) (t : Term) : Option Result :=
  runFrom env b (b.looks patience) t 0

def trace (env : Environment) (b : Bounds) (patience : Nat) (t : Term) :
    List Term × Option Result :=
  traceFrom env b (b.looks patience) t 0

/-- A reducer has a limit of its own for runs that do not ask for another. -/
structure Reducer where
  limit : Option Int

namespace Reducer

/-- The bounds of a run that asks for a limit, where -1 stands for the reducer's own. -/
def bounds (r : Reducer) (asked : Option Int) (cancelAfter : Option Nat) : Bounds where
  limit := if asked = some (-1) then r.limit else asked
  cancelAfter

def run (r : Reducer) (env : Environment) (asked : Option Int) (cancelAfter : Option Nat)
    (patience : Nat) (t : Term) : Option Result :=
  Reduction.run env (r.bounds asked cancelAfter) patience t

def trace (r : Reducer) (env : Environment) (asked : Option Int) (cancelAfter : Option Nat)
    (patience : Nat) (t : Term) : List Term × Option Result :=
  Reduction.trace env (r.bounds asked cancelAfter) patience t

end Reducer

/-- A trace ends as the run does. -/
theorem snd_traceFrom (env : Environment) (b : Bounds) (fuel : Nat) (t : Term) (steps : Nat) :
    (traceFrom env b fuel t steps).2 = runFrom env b fuel t steps := by
  induction fuel generalizing t steps with
  | zero => rfl
  | succ fuel ih =>
    simp only [traceFrom, runFrom]
    cases move env b t steps with
    | stop outcome => rfl
    | go next => exact ih next (steps + 1)

end NormalOrder.Reduction
