import NormalOrder.Environment
import NormalOrder.Files.Basic
import NormalOrder.Log
import NormalOrder.Reduction.Run
import NormalOrder.Report.Reporter

/-!
# Sessions

A session is what outlives a single line: the bindings, the settings, the results not yet shown and
the term being stepped through. Actions on it print, log and report failures, which is recorded as
events in the order in which they happen. An action that fails keeps what it has done so far.
-/

namespace NormalOrder

structure Settings where
  /-- The most steps per evaluation; -1 stands for the limit that the session started with. -/
  maxSteps : Reduction.Limit := .default
  /-- Whether every intermediate term is printed. -/
  trace : Bool := false
  /-- Whether results are shown with the names of bindings. -/
  names : Bool := true

structure Session where
  /-- The file that lines given without one belong to. -/
  path : String
  settings : Settings
  /-- The limit on steps that the session started with. -/
  startLimit : Reduction.Limit
  reporter : Reporter
  environment : Environment := Roster.empty
  /-- The results not yet shown, oldest first. -/
  results : List String := []
  /-- The term being stepped through. -/
  current : Option Term := none

/-- Where lines typed in come from. -/
def Session.defaultPath : String := "<in>"

def Session.start (path : String) (settings : Settings) (fatal : Bool) : Session where
  path
  settings
  startLimit := settings.maxSteps
  reporter := { fatal, traceback := Roster.empty.insert path none }

def Session.limit (s : Session) : Reduction.Limit :=
  if s.settings.maxSteps = .steps (-1) then s.startLimit else s.settings.maxSteps

inductive Event
  | printed (text : String)
  | reported (text : Text.Styled)
  | logged (record : Log.Record)

/-- A session with the files it works on. -/
structure Workspace where
  session : Session
  files : Files := {}
  events : Array Event := #[]
  /-- After how many more steps the evaluation that makes them is interrupted. -/
  interrupt : Option Nat := none
  /-- How many terms a reduction without a limit may look at. -/
  patience : Nat

/-- Reports a failure. The failure that goes on, if one does, is given back. -/
def Workspace.report (w : Workspace) (f : Failure) : Workspace × Option Failure :=
  let outcome := w.session.reporter.handle f
  let events := w.events.push (.reported outcome.printed)
  ({ w with session.reporter := outcome.reporter, events }, outcome.raised)

abbrev Action := EStateM Failure Workspace

namespace Action

variable {α : Type}

def emit (e : Event) : Action Unit :=
  modify fun w => { w with events := w.events.push e }

def printLine (text : String) : Action Unit :=
  emit (.printed (text ++ "\n"))

def log (level : Int) (message : String) : Action Unit :=
  emit (.logged ⟨"lambda_repl.lang.session", level, message⟩)

/-- Fails with a message that shows no expression. -/
def refuse (message : Text.Styled) (expr : String := "") : Action α :=
  throw (.reported (.remark message expr))

def session : Action Session := do
  return (← get).session

def modifySession (f : Session → Session) : Action Unit :=
  modify fun w => { w with session := f w.session }

def modifyTraceback (f : Traceback → Traceback) : Action Unit :=
  modifySession fun s => { s with reporter.traceback := f s.reporter.traceback }

def warn (d : Diagnostic) : Action Unit := do
  emit (.reported ((← session).reporter.traceback.warning d))

/-- Runs an action and reports its failure; a failure that goes on is the failure of the whole. -/
def guarded (action : Action α) : Action (Option α) := fun w =>
  match action w with
  | .ok a w => .ok (some a) w
  | .error f w =>
    match w.report f with
    | (w, none) => .ok none w
    | (w, some f) => .error f w

end Action

end NormalOrder
