import NormalOrder.Shell.Basic

/-!
# Running lines

What each command does, how a line is told to be one, and the loop that reads lines up to the end of
the input.
-/

namespace NormalOrder.Shell

open Turn

/-- `on` or `off`, in any case. -/
def switch (argument : String) : Turn Bool :=
  match argument.toLower with
  | "on" => return true
  | "off" => return false
  | _ => refuse (Text.plain "expected 'on' or 'off', got " ++ Text.quoted argument) argument

def onOff (b : Bool) : String := if b then "on" else "off"

def invalidCommand {α : Type} (text : String) : Turn α :=
  refuse (Text.plain "invalid command: " ++ Text.quoted text) text

def welcome : String :=
  "Welcome to the λ-calculus interpreter!\n\n" ++
    "Type a λ-term to reduce it to normal form, e.g. '(\\x. \\y. x) a b'. Both '\\' and 'λ' \n" ++
    "start an abstraction. Bind a name with 'id = \\x. x'; names are looked up when a term \n" ++
    "using them is reduced, and a λ-bound variable always shadows a binding of the same " ++
    "name.\n\n" ++
    "Commands:"

/-- A line of the list of commands; the names fill eight columns. -/
def helpLine (c : Command) : String :=
  "  :" ++ (c.name.pushn ' ' (8 - c.name.length)) ++ " " ++ c.summary

def help (argument : String) : Turn Unit := do
  if argument.isEmpty then
    printLine welcome
    Command.all.forM fun c => printLine (helpLine c)
  else
    match Command.find? (String.ofList (argument.toList.dropWhile (· = CommandLine.mark))) with
    | some c => printLine (c.summary ++ c.details)
    | none => invalidCommand argument

def showBinding (name : String) (t : Term) : Turn Unit :=
  printLine (name ++ " = " ++ t.render)

def env (argument : String) : Turn Unit := do
  let environment := (← session).environment
  if argument.isEmpty then
    environment.entries.forM fun e => showBinding e.1 e.2
  else
    match environment.find? argument with
    | some t => showBinding argument t
    | none => refuse (Text.quoted argument ++ Text.plain " is not bound") argument

def load (argument : String) : Turn Unit := do
  if argument.isEmpty then refuse (Text.plain ":load expects FILE") ""
  else Session.load argument

def save (argument : String) : Turn Unit := do
  if argument.isEmpty then refuse (Text.plain ":save expects FILE") ""
  else
    Session.save argument
    let count := (← session).environment.size
    printLine ("saved " ++ toString count ++ " bindings to '" ++ argument ++ "'")

def step (argument : String) : Turn Unit := do
  let t? ←
    if argument.isEmpty then pure none
    else
      match Statement.parseTerm argument with
      | .ok t => pure (some t)
      | .error fault => throw (.reported (fault.diagnostic argument))
  match ← (Session.step t? : Action (Option Term)) with
  | some reduced => printLine ("→ " ++ reduced.render)
  | none =>
    let s ← session
    printLine ("normal form: " ++ ((s.current.map s.display).getD ""))

def readLimit (argument : String) : Turn Reduction.Limit :=
  match Text.readNumeral argument with
  | .ok n => return .ofNat n
  | .error fault => throw (.breakdown (.numeral fault))

def limit (argument : String) : Turn Unit := do
  unless argument.isEmpty do
    if !Text.isNumeric argument then
      refuse (Text.quoted argument ++ Text.plain " is not a valid step limit") argument
    let limit ← readLimit argument
    modifySettings ({ · with maxSteps := limit })
  printLine ("step limit: " ++ (← session).settings.maxSteps.describe)

def trace (argument : String) : Turn Unit := do
  unless argument.isEmpty do
    let on ← switch argument
    modifySettings ({ · with trace := on })
  printLine ("trace: " ++ onOff (← session).settings.trace)

def names (argument : String) : Turn Unit := do
  unless argument.isEmpty do
    let on ← switch argument
    modifySettings ({ · with names := on })
  printLine ("names: " ++ onOff (← session).settings.names)

/-- Runs a command; the answer is whether the shell ends. -/
def runCommand (c : Command) (argument : String) : Turn Bool := do
  match c with
  | .exit | .quit => return true
  | .env => env argument
  | .help => help argument
  | .limit => limit argument
  | .load => load argument
  | .names => names argument
  | .save => save argument
  | .step => step argument
  | .trace => trace argument
  return false

/-- Runs a line of a statement, behind the unfinished one if there is one. -/
def runStatement (line : String) : Turn Unit := do
  modify fun s => { s with lineNumber := s.lineNumber + 1 }
  let s ← get
  let text := Statement.tidy (Statement.joinLine s.pending line)
  if Statement.goesOn text then set { s with pending := text, prompt := secondaryPrompt }
  else
    set { s with pending := "", prompt := primaryPrompt }
    Session.add text s.lineNumber s.workspace.session.path
    Session.flush

/-- Runs a line that may fail; the answer is whether the shell ends. The end of the input is taken
first, then the rest of an unfinished statement, and only then a command. -/
def dispatch (line : String) : Turn Bool := do
  let input := CommandLine.ofLine line
  if input.command = CommandLine.endWord then
    printLine ""
    return true
  else if !(← get).pending.isEmpty then
    runStatement line
    return false
  else if input.text.isEmpty then return false
  else if input.text.toList.head? ≠ some CommandLine.mark then
    runStatement input.text
    return false
  else
    match Command.find? input.command with
    | none => invalidCommand input.text
    | some c =>
      Action.emit (.logged ⟨"lambda_repl.lang.shell", Log.debug,
        "running command '" ++ c.name ++ "' with '" ++ input.argument ++ "'"⟩)
      runCommand c input.argument

def runLine (line : String) : Turn Bool := do
  return (← guarded (dispatch line)).getD false

/-- A file that a line works on. -/
inductive FileUse
  | reads (path : String)
  | writes (path : String)

/-- The file that a line asks for, so that it can be at hand when the line runs. -/
def fileUse? (s : Shell) (line : String) : Option FileUse :=
  let input := CommandLine.ofLine line
  if !s.pending.isEmpty ∨ input.argument.isEmpty then none
  else
    match Command.find? input.command with
    | some .load => some (.reads input.argument)
    | some .save => some (.writes input.argument)
    | _ => none

/-- What is typed at the prompt. -/
inductive Input
  | line (text : String)
  /-- The line is given up. -/
  | interrupt

/-- A line from a stream, without the line end it may have. -/
def Input.ofStream (line : String) : Input :=
  .line (Text.dropEnd (fun c => c = '\r' || c = '\n') line)

/-- Runs what is typed at the prompt; the answer is whether the shell ends. With a line that is
given up, an unfinished statement is given up as well. -/
def Input.turn : Input → Turn Bool
  | line text => runLine text
  | interrupt => do
    printLine "^C"
    modify fun s => { s with pending := "", prompt := primaryPrompt }
    return false

/-- Prompts for one input after another until a line ends the shell. -/
def loop : List Input → Turn Unit
  | [] => do
    print (← get).prompt
    let _ ← runLine CommandLine.endWord
  | input :: rest => do
    print (← get).prompt
    if ← input.turn then return
    loop rest

def run (inputs : List Input) : Turn Unit := do
  printLine intro
  loop inputs

end NormalOrder.Shell
