import NormalOrder.Proofs.Standing

/-!
# A line that fails changes nothing

A statement is evaluated before its result is put with the others, and a command checks its argument
before it does anything. What is pending is taken away before the statement runs. So a line that
fails leaves the session as it was, except for the reporter, and the next line starts a new
statement.

Prompt and pending text are set side by side, each by what completes or continues a statement and by
what gives one up. No line separates them: the prompt always tells whether a statement goes on.
-/

namespace NormalOrder.Shell

open Turn
open NormalOrder.Action (Keeps stateLeft bind_of_ok bind_of_error failure? exists_error)

variable {line text : String} {s s' : Shell} {f : Failure}

/-- The shell after a line, whether or not a failure goes on. -/
def afterLine (s : Shell) (line : String) : Shell :=
  stateLeft (runLine line s)

theorem runLine_of_ok {stop : Bool} (h : dispatch line s = .ok stop s') :
    runLine line s = .ok stop s' := by
  have hguarded : guarded (dispatch line) s = .ok (some stop) s' := by rw [guarded, h]
  exact bind_of_ok hguarded

/-- A failure is reported, and the line is over unless the failure goes on. -/
theorem runLine_of_error (h : dispatch line s = .error f s') :
    runLine line s =
      match (s'.workspace.report f).2 with
      | none => .ok false { s' with workspace := (s'.workspace.report f).1 }
      | some raised => .error raised { s' with workspace := (s'.workspace.report f).1 } := by
  rcases hreport : s'.workspace.report f with ⟨w, raised?⟩
  cases raised? with
  | none =>
    have hguarded : guarded (dispatch line) s = .ok none { s' with workspace := w } := by
      rw [guarded, h]
      simp only [hreport]
    exact bind_of_ok hguarded
  | some raised =>
    have hguarded : guarded (dispatch line) s = .error raised { s' with workspace := w } := by
      rw [guarded, h]
      simp only [hreport]
    exact bind_of_error hguarded

theorem afterLine_of_error (h : dispatch line s = .error f s') :
    s.afterLine line = { s' with workspace := (s'.workspace.report f).1 } := by
  rw [afterLine, runLine_of_error h]
  cases (s'.workspace.report f).2 <;> rfl

section Waiting

/-- Saying whether the shell ends changes nothing. -/
theorem stateLeft_bind_pure (turn : Turn Unit) (stop : Bool) (s : Shell) :
    stateLeft ((turn >>= fun _ => pure stop) s) = stateLeft (turn s) := by
  have hpure : ∀ _ : Unit, Keeps id (pure stop : Turn Bool) := fun _ => .pure stop
  exact Keeps.stateLeft_bind hpure turn s

def noted (s : Shell) (c : Command) (argument : String) : Shell :=
  { s with
    workspace.events := s.workspace.events.push
      (.logged ⟨"lambda_repl.lang.shell", Log.debug,
        "running command '" ++ c.name ++ "' with '" ++ argument ++ "'"⟩) }

theorem spares_noted (s : Shell) (c : Command) (argument : String) :
    s.Spares (s.noted c argument) :=
  ⟨rfl, .push _ _⟩

theorem stateLeft_turn_load (path : String) (s : Shell) :
    stateLeft ((Route.command .load path).turn s) = stateLeft (load path (s.noted .load path)) :=
  stateLeft_bind_pure (load path) false (s.noted .load path)

/-- A failure of a line is reported, and that is all that comes after it. -/
theorem spares_afterLine (s : Shell) (line : String) :
    (stateLeft (dispatch line s)).Spares (s.afterLine line) := by
  cases hdispatch : dispatch line s with
  | ok stop s' =>
    rw [afterLine, runLine_of_ok hdispatch]
    exact .refl s'
  | error f s' =>
    rw [afterLine_of_error hdispatch]
    exact ⟨rfl, .report s'.workspace f⟩

/-- What a line of a statement leaves waiting, whether or not the statement fails. -/
theorem waiting_runStatement (text : String) (s : Shell) :
    (stateLeft (runStatement text s)).waiting =
      if Statement.goesOn (s.statementWith text) then (s.statementWith text, secondaryPrompt)
      else ("", primaryPrompt) := by
  split
  · next hgoes =>
    rw [runStatement_of_goesOn hgoes]
    rfl
  · next hgoes =>
    rw [runStatement_of_not_goesOn (eq_false_of_ne_true hgoes), stateLeft_ofAction]
    rfl

theorem waiting_load (path : String) (s : Shell) :
    (stateLeft (load path s)).waiting = s.waiting := by
  rw [load]
  split
  · rfl
  · change (stateLeft (ofAction (Session.load path) s)).waiting = s.waiting
    rw [stateLeft_ofAction]
    rfl

theorem waiting_afterLine_of_statement (h : s.route line = .statement text) :
    (s.afterLine line).waiting =
      if Statement.goesOn (s.statementWith text) then (s.statementWith text, secondaryPrompt)
      else ("", primaryPrompt) := by
  rw [(s.spares_afterLine line).waiting, dispatch_eq, h, Route.turn, stateLeft_bind_pure,
    waiting_runStatement]

/-- No other line has anything to do with what is waiting. -/
theorem waiting_afterLine (h : ∀ text, s.route line ≠ .statement text) :
    (s.afterLine line).waiting = s.waiting := by
  rw [(s.spares_afterLine line).waiting, dispatch_eq]
  by_cases hload : ∃ path, s.route line = .command .load path
  · obtain ⟨path, hroute⟩ := hload
    rw [hroute, stateLeft_turn_load, waiting_load]
    exact (s.spares_noted .load path).waiting
  · exact (Sparing.turn h (not_exists.1 hload) s).waiting

end Waiting

section Reached

def afterInput (s : Shell) (input : Input) : Shell :=
  stateLeft (input.turn s)

theorem afterInput_line (s : Shell) (line : String) :
    s.afterInput (.line line) = s.afterLine line :=
  rfl

theorem afterInput_interrupt (s : Shell) :
    s.afterInput .interrupt =
      { s with
        workspace.events := s.workspace.events.push (.printed ("^C" ++ "\n"))
        prompt := primaryPrompt
        pending := "" } :=
  rfl

/-- The shells that a new one becomes by lines and interrupts. -/
inductive Reached : Shell → Prop
  | start (w : Workspace) : Reached (Shell.start w)
  | input {s : Shell} (h : Reached s) (input : Input) : Reached (s.afterInput input)

theorem Reached.inputs (h : Reached s) (inputs : List Input) :
    Reached (inputs.foldl afterInput s) := by
  induction inputs generalizing s with
  | nil => exact h
  | cons input inputs ih => exact ih (h.input input)

/-- The prompt tells whether a statement goes on. -/
def Coupled (s : Shell) : Prop :=
  s.prompt = if s.pending = "" then primaryPrompt else secondaryPrompt

theorem Coupled.of_waiting {pending prompt : String} (h : s.waiting = (pending, prompt))
    (hprompt : prompt = if pending = "" then primaryPrompt else secondaryPrompt) : s.Coupled := by
  cases h
  exact hprompt

theorem Coupled.afterLine (h : s.Coupled) (line : String) : (s.afterLine line).Coupled := by
  by_cases hstatement : ∃ text, s.route line = .statement text
  · obtain ⟨text, hroute⟩ := hstatement
    have hwaiting := waiting_afterLine_of_statement hroute
    split at hwaiting
    · next hgoes =>
      have hne : s.statementWith text ≠ "" := by
        intro hempty
        rw [hempty] at hgoes
        cases hgoes
      exact .of_waiting hwaiting (if_neg hne).symm
    · exact .of_waiting hwaiting rfl
  · exact .of_waiting (waiting_afterLine (not_exists.1 hstatement)) h

theorem Coupled.afterInput (h : s.Coupled) (input : Input) : (s.afterInput input).Coupled := by
  cases input with
  | line text => exact h.afterLine text
  | interrupt => rfl

theorem Reached.coupled (h : s.Reached) : s.Coupled := by
  induction h with
  | start w => rfl
  | input _ input ih => exact ih.afterInput input

end Reached

/-- A failure that is reported changes nothing but the reporter. -/
theorem report_fst (w : Workspace) (f : Failure) :
    ∃ reporter events, (w.report f).1 = { w with session.reporter := reporter, events } :=
  ⟨_, _, rfl⟩

/-- How a shell differs after a line has failed: nothing is waiting, and of the workspace only the
reporter, the events and the interrupt may have changed. -/
structure Recovered (s s' : Shell) : Prop where
  session : ∃ reporter, s'.workspace.session = { s.workspace.session with reporter }
  files : s'.workspace.files = s.workspace.files
  waiting : s'.waiting = ("", primaryPrompt)

theorem recovered_of_lineFails (hs : s.Coupled) (hload : ∀ path, s.route line ≠ .command .load path)
    (h : LineFails s line f s') : Recovered s s' := by
  -- A line that is no part of a statement is not read where one goes on.
  have hwaiting : s.route line ≠ .ending → (∀ text, s.route line ≠ .statement text) →
      s.waiting = ("", primaryPrompt) := by
    intro hending hstatement
    have hpending : s.pending = "" := by
      by_contra hne
      rcases route_of_pending hne line with hroute | hroute
      · exact hending hroute
      · exact hstatement line hroute
    rw [waiting, hs, hpending]
    rfl
  cases h with
  | statement hroute hcomplete hadd hs' =>
    obtain ⟨-, -, hw⟩ := Session.add_eq_error hadd
    refine ⟨?_, ?_, congrArg Shell.waiting hs'⟩
    · rw [hw]
      exact ⟨_, rfl⟩
    · rw [hw]
      rfl
  | invalid hroute hs' hf =>
    subst hs'
    refine ⟨⟨_, rfl⟩, rfl, hwaiting ?_ ?_⟩
    · simp [hroute]
    · simp [hroute]
  | command hroute hs' hf =>
    have hnone : s.waiting = ("", primaryPrompt) := hwaiting (by simp [hroute]) (by simp [hroute])
    rw [hs']
    exact ⟨⟨_, rfl⟩, rfl, hnone⟩
  | load hroute hpath hrun hs' => exact absurd hroute (hload _)

/-- Reporting the failure keeps what has been recovered. -/
theorem Recovered.report (h : Recovered s s') (f : Failure) :
    Recovered s { s' with workspace := (s'.workspace.report f).1 } := by
  obtain ⟨reporter, hsession⟩ := h.session
  obtain ⟨reporter', events, hreport⟩ := report_fst s'.workspace f
  refine ⟨⟨reporter', ?_⟩, ?_, h.waiting⟩
  · rw [hreport]
    simp only [hsession]
  · rw [hreport]
    exact h.files

/-- A line other than one that loads a file leaves the bindings, the settings, the results that wait
to be shown, the term being stepped through and the files as they were if it fails. Then nothing is
pending, and the prompt is the one for a new statement. -/
theorem failed_line_changes_nothing (s s₁ : Shell) (line : String) (f : Failure) (hs : s.Reached)
    (hload : ∀ path, s.route line ≠ .command .load path) (h : dispatch line s = .error f s₁) :
    (∃ reporter, (s.afterLine line).workspace.session = { s.workspace.session with reporter }) ∧
      (s.afterLine line).workspace.files = s.workspace.files ∧
      (s.afterLine line).pending = "" ∧ (s.afterLine line).prompt = "λ> " := by
  have hrecovered := (recovered_of_lineFails hs.coupled hload (lineFails_of_dispatch h)).report f
  rw [← afterLine_of_error h] at hrecovered
  obtain ⟨hpending, hprompt⟩ := Prod.mk.inj hrecovered.waiting
  exact ⟨hrecovered.session, hrecovered.files, hpending, hprompt⟩

/-- The last of three lines has a parenthesis too many. A binding, a setting and a term being
stepped through are there to be lost. -/
theorem failed_line_changes_nothing_third_line :
    let start : Workspace := { session := Session.start "<in>" {} false, patience := 10 }
    let inputs : List Input :=
      [.line "id = \\x. x", .line ":trace on", .line ":step id y", .line "(id", .line "y"]
    let s := inputs.foldl afterInput (Shell.start start)
    s.Reached ∧ s.pending = "(id y" ∧ s.prompt = ". " ∧ s.route ") )" = .statement ") )" ∧
      (∃ f s₁, dispatch ") )" s = .error f s₁) ∧
      (s.afterLine ") )").workspace.session.environment.entries = [("id", .lam "x" (.var "x"))] ∧
      (s.afterLine ") )").workspace.session.settings.trace = true ∧
      (s.afterLine ") )").workspace.session.current =
        some (.app (.lam "x" (.var "x")) (.var "y")) ∧
      (s.afterLine ") )").pending = "" ∧ (s.afterLine ") )").prompt = "λ> " := by
  intro start inputs s
  have hs : s.Reached := (Reached.start start).inputs inputs
  obtain ⟨hroute, hpending, hprompt, hfails, henv, htrace, hcurrent⟩ :
      s.route ") )" = .statement ") )" ∧ s.pending = "(id y" ∧ s.prompt = ". " ∧
      (failure? (dispatch ") )" s)).isSome = true ∧
      s.workspace.session.environment.entries = [("id", .lam "x" (.var "x"))] ∧
      s.workspace.session.settings.trace = true ∧
      s.workspace.session.current = some (.app (.lam "x" (.var "x")) (.var "y")) := by
    decide +kernel
  -- What follows holds of any shell with these properties, and should not run this one again.
  clear_value s
  obtain ⟨f, hf⟩ := Option.isSome_iff_exists.1 hfails
  obtain ⟨s₁, hdispatch⟩ := exists_error hf
  obtain ⟨⟨reporter, hsession⟩, -, hdone⟩ :=
    failed_line_changes_nothing s s₁ ") )" f hs (by simp [hroute]) hdispatch
  refine ⟨hs, hpending, hprompt, hroute, ⟨f, s₁, hdispatch⟩, ?_, ?_, ?_, hdone⟩
  · rw [hsession]
    exact henv
  · rw [hsession]
    exact htrace
  · rw [hsession]
    exact hcurrent

end NormalOrder.Shell
