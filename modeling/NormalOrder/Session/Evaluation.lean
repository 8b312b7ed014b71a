import NormalOrder.Session.Basic
import NormalOrder.Statement.Parser

/-!
# Evaluation in a session

Terms are reduced with the bindings and settings of the session. A statement either adds a binding
or has its term reduced and the result put with those waiting to be shown.
-/

namespace NormalOrder.Session

open NormalOrder.Action

/-- Goes through the terms of a trace. They are printed, if that is set, and count against the
interrupt in any case. -/
def followTrace (terms : List Term) : Action Unit := do
  if (← session).settings.trace then
    terms.forM fun t => printLine ("  → " ++ t.render)
  modify fun w => { w with
    interrupt := w.interrupt.bind fun n =>
      if terms.length < n then some (n - terms.length) else none }

/-- The message on a term whose reduction was stopped: `before`, the number of steps, `after`. -/
def stopped (t : Term) (before : String) (steps : Nat) (after : String) : Diagnostic :=
  .remark (Text.quoted t.render ++ Text.plain before ++ Text.bold (toString steps) ++
    Text.plain after)
    t.render

/-- The number of steps at which an evaluation ends. -/
def bound : Action (Option Int) := do
  match (← session).limit with
  | .unlimited => return none
  | .steps count => return some count
  | .blank => throw (.breakdown .blankLimit)

/-- Reduces a term with the settings of the session, and warns if it was stopped. -/
def evaluate (t : Term) : Action Reduction.Result := do
  let w ← get
  let limit ← bound
  let (terms, result?) :=
    Reduction.trace w.session.environment ⟨limit, w.interrupt⟩ w.patience t
  followTrace terms
  match result? with
  | none => throw .stalled
  | some result =>
    log Log.debug ("'" ++ t.render ++ "': " ++ result.outcome.describe ++ " after " ++
      toString result.steps ++ " steps")
    match result.outcome with
    | .halted => pure ()
    | .limitReached =>
      warn (stopped t " stopped after " result.steps
        " steps: it might not have a normal form (see :limit)")
    | .cancelled => warn (stopped t " interrupted after " result.steps " steps")
    return result

/-- Makes one step of a term, or of the one left by the step before. Nothing is the answer to a term
in normal form. -/
def step (t? : Option Term) : Action (Option Term) := do
  modifySession fun s => { s with current := t?.or s.current }
  let s ← session
  match s.current with
  | none => refuse (Text.plain "nothing to step: give a λ-term first")
  | some t =>
    let reduced := Reduction.step s.environment t
    modifySession fun s => { s with current := reduced.or s.current }
    return reduced

/-- A term as results are shown. -/
def display (s : Session) (t : Term) : String :=
  if s.settings.names then (Environment.readBack s.environment t).render else t.render

def define (name : String) (t : Term) : Action Unit := do
  let known := (← session).environment.contains name
  log Log.debug ((if known then "redefining '" else "defining '") ++ name ++ "'")
  modifySession fun s => { s with environment := s.environment.insert name t }

/-- Runs a statement. While it runs, it is the current line of its file. -/
def add (line : String) (number : Int) (path : String) : Action Unit := do
  unless Text.isBlankText line do
    modifyTraceback (·.insert path (some ⟨line, number⟩))
    match Statement.parse line with
    | .error fault => throw (.reported (fault.diagnostic line))
    | .ok (.bind name t) => define name t
    | .ok (.bare t) =>
      let result ← evaluate t
      modifySession fun s => { s with results := s.results ++ [s.display result.term] }
    modifyTraceback (·.insert path none)

/-- Takes the oldest result. -/
def pop : Action String := do
  match (← session).results with
  | [] => throw (.breakdown .noResult)
  | result :: rest =>
    modifySession fun s => { s with results := rest }
    return result

/-- Prints all results. -/
def flush : Action Unit := do
  (← session).results.forM printLine
  modifySession fun s => { s with results := [] }

end NormalOrder.Session
