import NormalOrder.Proofs.Failures
import NormalOrder.Shell.Run

/-!
# What a line is, and how it can fail

A line given to the shell is told by what is pending and by its first characters: the end of the
input, a line of a statement, a command, or nothing of these. Only then is it run. Of the commands,
all but the one that loads a file do nothing before the last check that can fail, so that one of
them that fails leaves the shell as it was.
-/

namespace NormalOrder.Shell

open Turn
open NormalOrder.Action (bind_of_ok bind_of_error bind_eq_ok bind_eq_error)

inductive Route
  /-- The end of the input. -/
  | ending
  | blank
  /-- A line of a statement. -/
  | statement (text : String)
  /-- A command that there is not, or several. -/
  | invalid (text : String)
  | command (c : Command) (argument : String)
deriving DecidableEq, Repr

def route (s : Shell) (line : String) : Route :=
  let input := CommandLine.ofLine line
  if input.command = CommandLine.endWord then .ending
  else if !s.pending.isEmpty then .statement line
  else if input.text.isEmpty then .blank
  else if input.text.toList.head? ≠ some CommandLine.mark then .statement input.text
  else
    match Command.find? input.command with
    | none => .invalid input.text
    | some c => .command c input.argument

def Route.turn : Route → Turn Bool
  | ending => do
    printLine ""
    return true
  | blank => return false
  | statement text => do
    runStatement text
    return false
  | invalid text => invalidCommand text
  | command c argument => do
    Action.emit (.logged ⟨"lambda_repl.lang.shell", Log.debug,
      "running command '" ++ c.name ++ "' with '" ++ argument ++ "'"⟩)
    runCommand c argument

/-- Running a line is telling what it is and then running it as that. -/
theorem dispatch_eq (line : String) (s : Shell) : dispatch line s = (s.route line).turn s := by
  rw [dispatch, route]
  split
  · rfl
  · rw [bind_of_ok (show (get : Turn Shell) s = .ok s s from rfl)]
    split
    · rfl
    · split
      · rfl
      · split
        · rfl
        · cases Command.find? (CommandLine.ofLine line).command <;> rfl

/-- Behind an unfinished statement there is nothing but the rest of it and the end of the input. -/
theorem route_of_pending {s : Shell} (h : s.pending ≠ "") (line : String) :
    s.route line = .ending ∨ s.route line = .statement line := by
  have hpending : (!s.pending.isEmpty) = true := by simpa using h
  simp only [route, hpending, if_true]
  split
  · exact .inl rfl
  · exact .inr rfl

section Statement

variable {line : String} {s : Shell}

theorem ofAction_of_ok {α : Type} {action : Action α} {a : α} {w : Workspace}
    (h : action s.workspace = .ok a w) : ofAction action s = .ok a { s with workspace := w } := by
  rw [ofAction, h]

theorem ofAction_of_error {α : Type} {action : Action α} {f : Failure} {w : Workspace}
    (h : action s.workspace = .error f w) :
    ofAction action s = .error f { s with workspace := w } := by
  rw [ofAction, h]

theorem stateLeft_ofAction {α : Type} (action : Action α) (s : Shell) :
    Action.stateLeft (ofAction action s) =
      { s with workspace := Action.stateLeft (action s.workspace) } := by
  rw [ofAction]
  cases action s.workspace <;> rfl

theorem ofAction_eq_error {α : Type} {action : Action α} {s' : Shell} {f : Failure}
    (h : ofAction action s = .error f s') :
    action s.workspace = .error f s'.workspace ∧ s' = { s with workspace := s'.workspace } := by
  rw [ofAction] at h
  split at h
  · cases h
  · next herror =>
    cases h
    exact ⟨herror, rfl⟩

theorem ofAction_bind {α β : Type} (x : Action α) (f : α → Action β) :
    ofAction (x >>= f) = ofAction x >>= fun a => ofAction (f a) := by
  funext s
  cases hx : x s.workspace with
  | ok a w =>
    rw [bind_of_ok (ofAction_of_ok hx)]
    simp only [ofAction, bind_of_ok hx]
  | error e w => rw [bind_of_error (ofAction_of_error hx), ofAction_of_error (bind_of_error hx)]

def statementWith (s : Shell) (line : String) : String :=
  Statement.tidy (Statement.joinLine s.pending line)

def goingOn (s : Shell) (line : String) : Shell where
  workspace := s.workspace
  prompt := secondaryPrompt
  pending := s.statementWith line
  lineNumber := s.lineNumber + 1

/-- The shell with a line that completes a statement, which is yet to be run. -/
def completed (s : Shell) : Shell where
  workspace := s.workspace
  prompt := primaryPrompt
  pending := ""
  lineNumber := s.lineNumber + 1

def complete (s : Shell) (text : String) : Action Unit :=
  Session.perform s.workspace.session.path ⟨text, s.lineNumber + 1⟩

theorem runStatement_apply (line : String) (s : Shell) :
    runStatement line s =
      (if Statement.goesOn (s.statementWith line) = true then set (s.goingOn line)
      else do
        set s.completed
        ofAction (s.complete (s.statementWith line)) : Turn Unit)
        { s with lineNumber := s.lineNumber + 1 } := by
  have hmodify (g : Shell → Shell) (f : Unit → Turn Unit) :
      ((modify g : Turn Unit) >>= f) s = f () (g s) := rfl
  have hget (f : Shell → Turn Unit) (s : Shell) : ((get : Turn Shell) >>= f) s = f s s := rfl
  rw [runStatement, hmodify, hget, complete, Session.perform, ofAction_bind]
  rfl

theorem runStatement_of_goesOn (h : Statement.goesOn (s.statementWith line) = true) :
    runStatement line s = .ok () (s.goingOn line) := by
  rw [runStatement_apply, if_pos h]
  rfl

theorem runStatement_of_not_goesOn (h : Statement.goesOn (s.statementWith line) = false) :
    runStatement line s = ofAction (s.complete (s.statementWith line)) s.completed := by
  rw [runStatement_apply, if_neg (Bool.eq_false_iff.1 h)]
  exact bind_of_ok rfl

end Statement

section Commands

variable {α β : Type}

def takeStep (t? : Option Term) : Turn Unit := do
  match ← (Session.step t? : Action (Option Term)) with
  | some reduced => printLine ("→ " ++ reduced.render)
  | none =>
    let s ← session
    printLine ("normal form: " ++ ((s.current.map s.display).getD ""))

theorem step_eq (argument : String) :
    step argument =
      if argument.isEmpty = true then takeStep none
      else
        match Statement.parseTerm argument with
        | .ok t => takeStep (some t)
        | .error fault => throw (.reported (fault.diagnostic argument)) := by
  rw [step]
  split
  · rfl
  · cases Statement.parseTerm argument <;> rfl

def showLimit : Turn Unit := do
  printLine ("step limit: " ++ (← session).settings.maxSteps.describe)

theorem limit_eq (argument : String) :
    limit argument =
      if argument.isEmpty = true then showLimit
      else if Text.isNumeric argument = true then
        match Text.readNumeral argument with
        | .ok n => do
          modifySettings ({ · with maxSteps := .ofNat n })
          showLimit
        | .error fault => throw (.breakdown (.numeral fault))
      else
        refuse (Text.quoted argument ++ Text.plain " is not a valid step limit") argument := by
  rw [limit]
  split
  · rfl
  · cases Text.isNumeric argument with
    | false => rfl
    | true =>
      simp only [readLimit]
      cases Text.readNumeral argument <;> rfl

def Succeeds (turn : Turn α) : Prop :=
  ∀ s, ∃ a s', turn s = .ok a s'

/-- A turn that fails does so with a report, and leaves the shell as it was. -/
def Declines (turn : Turn α) : Prop :=
  ∀ s f s', turn s = .error f s' → s' = s ∧ ∃ d, f = .reported d

namespace Succeeds

theorem pure (a : α) : Succeeds (Pure.pure a) :=
  fun s => ⟨a, s, rfl⟩

theorem printLine (text : String) : Succeeds (Turn.printLine text) :=
  fun _ => ⟨(), _, rfl⟩

theorem session : Succeeds Turn.session :=
  fun _ => ⟨_, _, rfl⟩

theorem modifySettings (f : Settings → Settings) : Succeeds (Turn.modifySettings f) :=
  fun _ => ⟨(), _, rfl⟩

theorem bind {x : Turn α} {f : α → Turn β} (hx : Succeeds x) (hf : ∀ a, Succeeds (f a)) :
    Succeeds (x >>= f) := by
  intro s
  obtain ⟨a, s₁, h₁⟩ := hx s
  obtain ⟨b, s₂, h₂⟩ := hf a s₁
  exact ⟨b, s₂, (bind_of_ok h₁).trans h₂⟩

theorem forM {f : α → Turn Unit} (hf : ∀ a, Succeeds (f a)) (as : List α) :
    Succeeds (as.forM f) := by
  induction as with
  | nil => exact pure ()
  | cons a as ih => exact bind (hf a) fun _ => ih

end Succeeds

namespace Declines

theorem of_succeeds {x : Turn α} (h : Succeeds x) : Declines x := by
  intro s f s' herror
  obtain ⟨a, s₁, hok⟩ := h s
  rw [hok] at herror
  cases herror

theorem refuse (message : Text.Styled) (expr : String) :
    Declines (Turn.refuse message expr : Turn α) := by
  rintro s f s' ⟨⟩
  exact ⟨rfl, _, rfl⟩

/-- What comes before a check may look at the session only, and what comes after it does not
fail. -/
theorem session_bind {f : Session → Turn α} (hf : ∀ session, Declines (f session)) :
    Declines (Turn.session >>= f) :=
  fun s g s' h => hf s.workspace.session s g s' h

theorem bind {x : Turn α} {f : α → Turn β} (hx : Declines x) (hf : ∀ a, Succeeds (f a)) :
    Declines (x >>= f) := by
  intro s e s' h
  rcases bind_eq_error h with herror | ⟨a, s₁, -, herror⟩
  · exact hx s e s' herror
  · obtain ⟨b, s₂, hok⟩ := hf a s₁
    rw [hok] at herror
    cases herror

theorem switch (argument : String) : Declines (Shell.switch argument) := by
  unfold Shell.switch
  split
  · exact of_succeeds (.pure _)
  · exact of_succeeds (.pure _)
  · exact refuse _ _

theorem invalidCommand (text : String) : Declines (Shell.invalidCommand text : Turn α) :=
  refuse _ _

theorem help (argument : String) : Declines (Shell.help argument) := by
  unfold Shell.help
  split
  · exact of_succeeds (.bind (.printLine _) fun _ => .forM (fun _ => .printLine _) _)
  · split
    · exact of_succeeds (.printLine _)
    · exact invalidCommand _

theorem env (argument : String) : Declines (Shell.env argument) := by
  refine session_bind fun session => ?_
  dsimp only
  split
  · exact of_succeeds (.forM (fun _ => .printLine _) _)
  · split
    · exact of_succeeds (.printLine _)
    · exact refuse _ _

theorem ofAction {action : Action α}
    (h : ∀ w f w', action w = .error f w' → w' = w ∧ ∃ d, f = .reported d) :
    Declines (Turn.ofAction action) := by
  intro s f s' herror
  obtain ⟨hrun, hs'⟩ := ofAction_eq_error herror
  obtain ⟨hw, hd⟩ := h _ _ _ hrun
  refine ⟨?_, hd⟩
  rw [hs', hw]

theorem takeStep (t? : Option Term) : Declines (Shell.takeStep t?) := by
  have hstep : ∀ w f w', Session.step t? w = .error f w' → w' = w ∧ ∃ d, f = .reported d := by
    intro w f w' h
    rw [Session.step_apply] at h
    cases ht : t?.or w.session.current with
    | none =>
      rw [ht] at h
      cases h
      exact ⟨rfl, _, rfl⟩
    | some t =>
      rw [ht] at h
      cases h
  refine bind (ofAction hstep) fun reduced => ?_
  cases reduced with
  | some t => exact .printLine _
  | none => exact .bind .session fun _ => .printLine _

theorem step (argument : String) : Declines (Shell.step argument) := by
  rw [step_eq]
  split
  · exact takeStep none
  · cases Statement.parseTerm argument with
    | ok t => exact takeStep (some t)
    | error fault =>
      rintro s f s' ⟨⟩
      exact ⟨rfl, _, rfl⟩

/-- Setting one of the two switches, if there is an argument, and showing it. -/
theorem toggle (argument : String) {set : Bool → Settings → Settings} {text : Session → String} :
    Declines (do
      unless argument.isEmpty do
        let on ← Shell.switch argument
        modifySettings (set on)
      printLine (text (← Turn.session))) := by
  cases argument.isEmpty with
  | true => exact of_succeeds (.bind .session fun _ => .printLine _)
  | false =>
    exact bind (switch _) fun _ => .bind (.modifySettings _) fun _ => .bind .session fun _ =>
      .printLine _

end Declines

/-- The arguments that a command is not prepared for, apart from those of the one that loads a file,
and how it breaks down on them. -/
inductive Overlooks : Command → String → Failure → Prop
  /-- Digits that cannot be read as a number. -/
  | numeral {argument : String} {fault : Text.NumeralFault}
    (hnumeric : Text.isNumeric argument = true) (hread : Text.readNumeral argument = .error fault) :
    Overlooks .limit argument (.breakdown (.numeral fault))
  /-- A path that no file can have. -/
  | path {argument : String} (hnull : Files.hasNull argument = true) :
    Overlooks .save argument (.breakdown .nullCharacter)

theorem eq_of_limit_eq_error {argument : String} {s s' : Shell} {f : Failure}
    (h : limit argument s = .error f s') :
    s' = s ∧ ((∃ d, f = .reported d) ∨ Overlooks .limit argument f) := by
  rw [limit_eq] at h
  split at h
  · cases h
  · split at h
    · next hnumeric =>
      cases hread : Text.readNumeral argument with
      | ok n =>
        rw [hread] at h
        cases h
      | error fault =>
        rw [hread] at h
        cases h
        exact ⟨rfl, .inr (.numeral hnumeric hread)⟩
    · cases h
      exact ⟨rfl, .inl ⟨_, rfl⟩⟩

theorem eq_of_save_eq_error {argument : String} {s s' : Shell} {f : Failure}
    (h : save argument s = .error f s') :
    s' = s ∧ ((∃ d, f = .reported d) ∨ Overlooks .save argument f) := by
  rw [save] at h
  split at h
  · cases h
    exact ⟨rfl, .inl ⟨_, rfl⟩⟩
  · rcases bind_eq_error h with hsave | ⟨_, _, _, hshow⟩
    · obtain ⟨herror, hs'⟩ := ofAction_eq_error hsave
      obtain ⟨hw, hd | ⟨rfl, hnull⟩⟩ := Session.save_eq_error herror
      · exact ⟨by rw [hs', hw], .inl hd⟩
      · exact ⟨by rw [hs', hw], .inr (.path hnull)⟩
    · cases hshow

/-- All that can go wrong with a command other than loading, which then has done nothing. -/
theorem eq_of_runCommand_eq_error {c : Command} {argument : String} {s s' : Shell} {f : Failure}
    (hc : c ≠ .load) (h : runCommand c argument s = .error f s') :
    s' = s ∧ ((∃ d, f = .reported d) ∨ Overlooks c argument f) := by
  have hdeclines {turn : Turn Unit} (hturn : Declines turn)
      (hrun : (turn >>= fun _ => Pure.pure false) s = .error f s') :
      s' = s ∧ ((∃ d, f = .reported d) ∨ Overlooks c argument f) := by
    obtain ⟨hs, hd⟩ := hturn.bind (fun _ => .pure false) s f s' hrun
    exact ⟨hs, .inl hd⟩
  cases c with
  | env => exact hdeclines (.env argument) h
  | exit => cases h
  | help => exact hdeclines (.help argument) h
  | limit =>
    rcases bind_eq_error h with hlimit | ⟨_, _, _, hpure⟩
    · exact eq_of_limit_eq_error hlimit
    · cases hpure
  | load => exact absurd rfl hc
  | names => exact hdeclines (.toggle argument) h
  | quit => cases h
  | save =>
    rcases bind_eq_error h with hsave | ⟨_, _, _, hpure⟩
    · exact eq_of_save_eq_error hsave
    · cases hpure
  | step => exact hdeclines (.step argument) h
  | trace => exact hdeclines (.toggle argument) h

inductive LineFails (s : Shell) (line : String) (f : Failure) (s' : Shell) : Prop
  | statement {text : String} (hroute : s.route line = .statement text)
    (hcomplete : Statement.goesOn (s.statementWith text) = false)
    (hadd : Session.add (s.statementWith text) (s.lineNumber + 1 : Nat) s.workspace.session.path
      s.workspace = .error f s'.workspace)
    (hs' : s' = { s.completed with workspace := s'.workspace })
  | invalid {text : String} (hroute : s.route line = .invalid text) (hs' : s' = s)
    (hf : ∃ d, f = .reported d)
  /-- A command that has done nothing. -/
  | command {c : Command} {argument : String} (hroute : s.route line = .command c argument)
    (hs' : s' = { s with workspace.events := s'.workspace.events })
    (hf : (∃ d, f = .reported d) ∨ Overlooks c argument f)
  | load {path : String} {events : Array Event} (hroute : s.route line = .command .load path)
    (hpath : path ≠ "")
    (hload : Session.load path { s.workspace with events } = .error f s'.workspace)
    (hs' : s' = { s with workspace := s'.workspace })

theorem lineFails_of_runStatement {line text : String} {s s' : Shell} {f : Failure}
    (hroute : s.route line = .statement text) (h : runStatement text s = .error f s') :
    LineFails s line f s' := by
  cases hgoes : Statement.goesOn (s.statementWith text) with
  | true =>
    rw [runStatement_of_goesOn hgoes] at h
    cases h
  | false =>
    rw [runStatement_of_not_goesOn hgoes] at h
    obtain ⟨hcomplete, hs'⟩ := ofAction_eq_error h
    rw [complete] at hcomplete
    have hadd := Session.perform_eq_error hcomplete
    exact .statement hroute hgoes hadd hs'

theorem lineFails_of_runCommand {line : String} {c : Command} {argument : String} {s s' : Shell}
    {events : Array Event} {f : Failure} (hroute : s.route line = .command c argument)
    (h : runCommand c argument { s with workspace.events := events } = .error f s') :
    LineFails s line f s' := by
  by_cases hc : c = .load
  · subst hc
    rcases bind_eq_error h with hload | ⟨_, _, _, hpure⟩
    · rw [load] at hload
      split at hload
      · cases hload
        exact .command hroute rfl (.inl ⟨_, rfl⟩)
      · next hpath =>
        obtain ⟨hload, hs'⟩ := ofAction_eq_error hload
        exact .load hroute (by simpa using hpath) hload hs'
    · cases hpure
  · obtain ⟨hs', hf⟩ := eq_of_runCommand_eq_error hc h
    refine .command hroute ?_ hf
    rw [hs']

theorem lineFails_of_dispatch {line : String} {s s' : Shell} {f : Failure}
    (h : dispatch line s = .error f s') : LineFails s line f s' := by
  rw [dispatch_eq] at h
  cases hroute : s.route line with
  | ending =>
    rw [hroute] at h
    cases h
  | blank =>
    rw [hroute] at h
    cases h
  | invalid text =>
    rw [hroute] at h
    obtain ⟨hs', hd⟩ := Declines.invalidCommand text s f s' h
    exact .invalid hroute hs' hd
  | statement text =>
    rw [hroute] at h
    rcases bind_eq_error h with hrun | ⟨_, _, _, hpure⟩
    · exact lineFails_of_runStatement hroute hrun
    · cases hpure
  | command c argument =>
    rw [hroute] at h
    -- The command is noted in the log before it runs.
    exact lineFails_of_runCommand hroute h

end Commands

end NormalOrder.Shell
