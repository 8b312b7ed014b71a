import NormalOrder.Options.Parser
import NormalOrder.Prelude
import NormalOrder.Shell.Run

/-!
# The program

The bundled prelude is loaded, then the files asked for as preludes, and then the program runs a
file or starts the shell. Until the shell is started, the first failure ends the program.
-/

namespace NormalOrder.Program

def settings (o : Options) : Settings where
  maxSteps := o.maxSteps
  trace := o.trace
  names := !o.noNames

def logSetup (o : Options) (terminal : Bool) : Log.Setup where
  level := if o.verbose then Log.debug else Log.warning
  terminal

def start (o : Options) (files : Files) (patience : Nat) : Workspace where
  session := Session.start Session.defaultPath (settings o) true
  files
  patience

def announce (path : String) : Action Unit :=
  Action.emit (.logged ⟨"lambda_repl.main", Log.debug, "loading prelude '" ++ path ++ "'"⟩)

def loadPrelude : Option String → Action Unit
  | some path => do
    announce path
    Session.load path
  | none => do
    announce "[]"
    throw (.breakdown .blankPath)

def loadPreludes (o : Options) : Action Unit := do
  unless o.noPrelude do
    announce Prelude.path
    Session.loadText Prelude.path Prelude.text
  o.preludes.forM loadPrelude

def shell (inputs : List Shell.Input) : Action Unit := fun w =>
  match Shell.run inputs (Shell.start w) with
  | .ok _ s => .ok () s.workspace
  | .error f s => .error f s.workspace

/-- All that the program does, given what is typed into its shell. -/
def body (o : Options) (inputs : List Shell.Input) : Action Unit := do
  loadPreludes o
  match o.file with
  | some file => Session.load file
  | none => shell inputs

def run (o : Options) (inputs : List Shell.Input) : Action Unit := do
  let _ ← Action.guarded (body o inputs)

end NormalOrder.Program
