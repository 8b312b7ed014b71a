import NormalOrder.Session.Storage
import NormalOrder.Shell.Command

/-!
# The shell

The shell runs one line after another: a command, or a statement for the session. A statement with
open parentheses waits for the next line. A failure ends its line and nothing else, unless the
program is not prepared for it.
-/

namespace NormalOrder

namespace Shell

/-- The prompt for a new statement or a command. -/
def primaryPrompt : String := "λ> "

/-- The prompt for the next line of a statement. -/
def secondaryPrompt : String := ". "

end Shell

structure Shell where
  workspace : Workspace
  prompt : String := Shell.primaryPrompt
  /-- The lines of a statement that is not finished; empty if there is none. -/
  pending : String := ""
  /-- How many lines of statements have been read. -/
  lineNumber : Nat := 0

namespace Shell

/-- A shell on a session, in which failures are not fatal. -/
def start (w : Workspace) : Shell where
  workspace := { w with session.reporter.fatal := false }

def intro : String :=
  "λ-calculus interpreter :: normal-order reduction\nType ':help' for more information."

abbrev Turn := EStateM Failure Shell

namespace Turn

variable {α : Type}

/-- An action on the session of the shell. -/
def ofAction (action : Action α) : Turn α := fun s =>
  match action s.workspace with
  | .ok a w => .ok a { s with workspace := w }
  | .error f w => .error f { s with workspace := w }

instance : MonadLift Action Turn := ⟨ofAction⟩

def print (text : String) : Turn Unit :=
  Action.emit (.printed text)

def printLine (text : String) : Turn Unit :=
  Action.printLine text

def refuse (message : Text.Styled) (expr : String) : Turn α :=
  (Action.refuse message expr : Action α)

def session : Turn Session :=
  Action.session

def modifySettings (f : Settings → Settings) : Turn Unit :=
  Action.modifySession fun s => { s with settings := f s.settings }

/-- Runs a turn as one line: a failure is reported and ends it. -/
def guarded (turn : Turn α) : Turn (Option α) := fun s =>
  match turn s with
  | .ok a s => .ok (some a) s
  | .error f s =>
    match s.workspace.report f with
    | (w, none) => .ok none { s with workspace := w }
    | (w, some f) => .error f { s with workspace := w }

end Turn

end Shell

end NormalOrder
