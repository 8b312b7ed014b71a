import NormalOrder.Proofs.Alike
import NormalOrder.Proofs.Turn

/-!
# What lines leave as it is

Statements change the bindings, the results and what reports start with, but neither the settings
nor the files. A line that runs no statement, neither itself nor by loading a file, leaves what is
pending and the results that wait to be shown. No line changes whether failures are fatal.
-/

namespace NormalOrder

structure Standing where
  path : String
  settings : Settings
  startLimit : Reduction.Limit
  fatal : Bool
  files : Files
  patience : Nat

def Workspace.standing (w : Workspace) : Standing where
  path := w.session.path
  settings := w.session.settings
  startLimit := w.session.startLimit
  fatal := w.session.reporter.fatal
  files := w.files
  patience := w.patience

def Standing.limit (s : Standing) : Reduction.Limit :=
  if s.settings.maxSteps = .steps (-1) then s.startLimit else s.settings.maxSteps

namespace Workspace

variable {w : Workspace}

/-- Where failures are not fatal, the only ones to go on are those that no report can settle. -/
theorem raised_report (hfatal : w.session.reporter.fatal = false) (f : Failure) :
    (w.report f).2 = if f.persists then some f else none := by
  cases f <;>
    simp [report, Reporter.handle, Reporter.throw, Failure.diagnostic?, hfatal, Failure.persists]

theorem fatal_report (w : Workspace) (f : Failure) :
    (w.report f).1.session.reporter.fatal = w.session.reporter.fatal := by
  simp only [report, Reporter.handle, Reporter.throw]
  cases f.diagnostic? with
  | none => rfl
  | some d => cases hfatal : w.session.reporter.fatal <;> simp [hfatal]

/-- What is left alone where no statement is run. More may have been printed. -/
structure Spares (w w' : Workspace) : Prop where
  results : w'.session.results = w.session.results
  fatal : w'.session.reporter.fatal = w.session.reporter.fatal
  printed : w.printed <+: w'.printed

namespace Spares

theorem refl (w : Workspace) : w.Spares w :=
  ⟨rfl, rfl, List.prefix_rfl⟩

theorem trans {w' w'' : Workspace} (h : w.Spares w') (h' : w'.Spares w'') : w.Spares w'' :=
  ⟨h'.results.trans h.results, h'.fatal.trans h.fatal, h.printed.trans h'.printed⟩

theorem push (w : Workspace) (e : Event) : w.Spares { w with events := w.events.push e } := by
  refine ⟨rfl, rfl, ?_⟩
  simp only [Workspace.printed, Array.toList_push, List.filterMap_append]
  exact List.prefix_append _ _

theorem report (w : Workspace) (f : Failure) : w.Spares (w.report f).1 :=
  ⟨rfl, w.fatal_report f, (push w (.reported (w.session.reporter.handle f).printed)).printed⟩

end Spares

end Workspace

namespace Session

open NormalOrder.Action Statement

theorem keeps_standing_emit (e : Event) : Keeps Workspace.standing (emit e) :=
  .emit (fun _ _ => rfl) e

theorem keeps_standing_modifyTraceback (f : Traceback → Traceback) :
    Keeps Workspace.standing (modifyTraceback f) :=
  .modify fun _ => rfl

theorem keeps_standing_execute (line : String) (statement? : Except Fault Statement) :
    Keeps Workspace.standing (execute line statement?) := by
  rcases statement? with fault | (⟨name, t⟩ | t)
  · exact .throw _
  · exact .bind .session fun _ => .bind (keeps_standing_emit _) fun _ => .modify fun _ => rfl
  · exact .bind (keeps_evaluate (fun _ _ => rfl) (fun _ _ => rfl) t) fun _ => .modify fun _ => rfl

theorem keeps_standing_add (line : String) (number : Int) (path : String) :
    Keeps Workspace.standing (add line number path) := by
  cases hblank : Text.isBlankText line with
  | true =>
    intro w
    rw [add_of_blank number path hblank]
    rfl
  | false =>
    rw [add_of_not_blank number path hblank]
    exact .bind (keeps_standing_modifyTraceback _) fun _ =>
      .bind (keeps_standing_execute line _) fun _ => keeps_standing_modifyTraceback _

theorem keeps_standing_flush : Keeps Workspace.standing flush :=
  .bind .session fun _ => .bind (.forM (fun _ => keeps_standing_emit _) _) fun _ =>
    .modify fun _ => rfl

theorem keeps_standing_perform (path : String) (s : Numbered) :
    Keeps Workspace.standing (perform path s) :=
  .bind (keeps_standing_add _ _ _) fun _ => keeps_standing_flush

theorem keeps_standing_runText (path text : String) :
    Keeps Workspace.standing (runText path text) :=
  .bind .session fun _ => .bind (.forM (fun s => keeps_standing_perform path s) _) fun _ =>
    .bind .session fun _ => .bind (keeps_standing_emit _) fun _ => keeps_standing_modifyTraceback _

theorem keeps_standing_load (path : String) : Keeps Workspace.standing (load path) := by
  intro w
  rw [load_apply]
  cases w.files.read path with
  | error fault => rfl
  | ok bytes =>
    dsimp only
    cases Text.Utf8.decode bytes with
    | error fault => rfl
    | ok text => exact keeps_standing_runText path text _

end Session

namespace Shell

open Turn
open NormalOrder.Action (Keeps)

variable {α γ : Type}

theorem keeps_ofAction {part : Workspace → γ} {action : Action α} (h : Keeps part action) :
    Keeps (fun s : Shell => part s.workspace) (ofAction action) := by
  intro s
  rw [ofAction]
  cases haction : action s.workspace with
  | ok a w => exact h.of_ok haction
  | error f w => exact h.of_error haction

def fatal (s : Shell) : Bool :=
  s.workspace.session.reporter.fatal

theorem keeps_fatal_of_standing {action : Action α} (h : Keeps Workspace.standing action) :
    Keeps fatal (ofAction action) := by
  have hfatal : Keeps (fun w : Workspace => w.session.reporter.fatal) action :=
    fun w => congrArg Standing.fatal (h w)
  exact keeps_ofAction hfatal

/-- What there is of a statement that goes on, and the prompt for the next line. -/
def waiting (s : Shell) : String × String :=
  (s.pending, s.prompt)

structure Spares (s s' : Shell) : Prop where
  waiting : s'.waiting = s.waiting
  workspace : s.workspace.Spares s'.workspace

theorem Spares.refl (s : Shell) : s.Spares s :=
  ⟨rfl, .refl s.workspace⟩

theorem Spares.trans {s s' s'' : Shell} (h : s.Spares s') (h' : s'.Spares s'') : s.Spares s'' :=
  ⟨h'.waiting.trans h.waiting, h.workspace.trans h'.workspace⟩

def Sparing (turn : Turn α) : Prop :=
  ∀ s : Shell, s.Spares (Action.stateLeft (turn s))

namespace Sparing

theorem pure (a : α) : Sparing (Pure.pure a) :=
  fun s => .refl s

theorem throw (e : Failure) : Sparing (MonadExcept.throw e : Turn α) :=
  fun s => .refl s

theorem bind {x : Turn α} {f : α → Turn γ} (hx : Sparing x) (hf : ∀ a, Sparing (f a)) :
    Sparing (x >>= f) := by
  intro s
  have hs := hx s
  cases hrun : x s with
  | ok a s₁ =>
    rw [hrun] at hs
    rw [Action.bind_of_ok hrun]
    exact hs.trans (hf a s₁)
  | error e s₁ =>
    rw [hrun] at hs
    rw [Action.bind_of_error hrun]
    exact hs

theorem forM {f : α → Turn Unit} (hf : ∀ a, Sparing (f a)) (as : List α) : Sparing (as.forM f) := by
  induction as with
  | nil => exact pure ()
  | cons a as ih => exact bind (hf a) fun _ => ih

theorem ofAction {action : Action α} (h : ∀ w : Workspace, w.Spares (Action.stateLeft (action w))) :
    Sparing (Turn.ofAction action) := by
  intro s
  have hw := h s.workspace
  rw [Turn.ofAction]
  cases haction : action s.workspace with
  | ok a w =>
    rw [haction] at hw
    exact ⟨rfl, hw⟩
  | error f w =>
    rw [haction] at hw
    exact ⟨rfl, hw⟩

theorem emit (e : Event) : Sparing (Turn.ofAction (Action.emit e)) :=
  ofAction fun w => .push w e

theorem printLine (text : String) : Sparing (Turn.printLine text) :=
  emit _

theorem session : Sparing Turn.session :=
  fun s => .refl s

theorem modifySettings (f : Settings → Settings) : Sparing (Turn.modifySettings f) :=
  fun _ => ⟨rfl, rfl, rfl, List.prefix_rfl⟩

theorem refuse (message : Text.Styled) (expr : String) :
    Sparing (Turn.refuse message expr : Turn α) :=
  fun s => .refl s

section Commands

variable (argument : String)

theorem switch : Sparing (Shell.switch argument) := by
  unfold Shell.switch
  split
  · exact pure _
  · exact pure _
  · exact refuse _ _

theorem help : Sparing (Shell.help argument) := by
  rw [Shell.help]
  split
  · exact bind (printLine _) fun _ => forM (fun _ => printLine _) _
  · split
    · exact printLine _
    · exact refuse _ _

theorem env : Sparing (Shell.env argument) := by
  refine bind session fun session => ?_
  dsimp only
  split
  · exact forM (fun _ => printLine _) _
  · split
    · exact printLine _
    · exact refuse _ _

theorem limit : Sparing (Shell.limit argument) := by
  rw [limit_eq]
  have hshow : Sparing showLimit := bind session fun _ => printLine _
  split
  · exact hshow
  · split
    · cases Text.readNumeral argument with
      | ok n => exact bind (modifySettings _) fun _ => hshow
      | error fault => exact throw _
    · exact refuse _ _

/-- Setting one of the two switches, if there is an argument, and showing it. -/
theorem toggle {set : Bool → Settings → Settings} {text : Session → String} :
    Sparing (do
      unless argument.isEmpty do
        let on ← Shell.switch argument
        Turn.modifySettings (set on)
      Turn.printLine (text (← Turn.session))) := by
  cases argument.isEmpty with
  | true => exact bind session fun _ => printLine _
  | false =>
    exact bind (switch argument) fun _ => bind (modifySettings _) fun _ =>
      bind session fun _ => printLine _

theorem save : Sparing (Shell.save argument) := by
  have hsave : ∀ w : Workspace, w.Spares (Action.stateLeft (Session.save argument w)) := by
    intro w
    rw [Session.save_apply]
    cases w.files.write argument (Text.Utf8.encode (Session.program w.session.environment)) with
    | error fault => exact .refl w
    | ok files =>
      have hfiles : w.Spares { w with files } := ⟨rfl, rfl, List.prefix_rfl⟩
      exact hfiles.trans (.push _ _)
  rw [Shell.save]
  split
  · exact refuse _ _
  · exact bind (ofAction hsave) fun _ => bind session fun _ => printLine _

theorem takeStep (t? : Option Term) : Sparing (Shell.takeStep t?) := by
  have hstep : ∀ w : Workspace, w.Spares (Action.stateLeft (Session.step t? w)) := by
    intro w
    rw [Session.step_apply]
    cases t?.or w.session.current with
    | none => exact .refl w
    | some t => exact ⟨rfl, rfl, List.prefix_rfl⟩
  refine bind (ofAction hstep) fun reduced => ?_
  cases reduced with
  | some t => exact printLine _
  | none => exact bind session fun _ => printLine _

theorem step : Sparing (Shell.step argument) := by
  rw [step_eq]
  split
  · exact takeStep none
  · cases Statement.parseTerm argument with
    | ok t => exact takeStep (some t)
    | error fault => exact throw _

theorem runCommand {c : Command} (hc : c ≠ .load) : Sparing (Shell.runCommand c argument) := by
  cases c with
  | exit => exact pure true
  | quit => exact pure true
  | env => exact bind (env argument) fun _ => pure false
  | help => exact bind (help argument) fun _ => pure false
  | limit => exact bind (limit argument) fun _ => pure false
  | load => exact absurd rfl hc
  | names => exact bind (toggle argument) fun _ => pure false
  | save => exact bind (save argument) fun _ => pure false
  | step => exact bind (step argument) fun _ => pure false
  | trace => exact bind (toggle argument) fun _ => pure false

end Commands

/-- All lines but those of statements and those that load a file are sparing. -/
theorem turn {r : Route} (hstatement : ∀ text, r ≠ .statement text)
    (hload : ∀ path, r ≠ .command .load path) : Sparing r.turn := by
  cases r with
  | ending => exact bind (printLine "") fun _ => pure true
  | blank => exact pure false
  | statement text => exact absurd rfl (hstatement text)
  | invalid text => exact refuse _ _
  | command c argument =>
    have hc : c ≠ .load := by
      rintro rfl
      exact hload argument rfl
    exact bind (emit _) fun _ => runCommand argument hc

end Sparing

theorem keeps_fatal_load (argument : String) : Keeps fatal (load argument) := by
  rw [load]
  split
  · exact .throw _
  · exact keeps_fatal_of_standing (Session.keeps_standing_load argument)

theorem keeps_fatal_runStatement (line : String) : Keeps fatal (runStatement line) := by
  intro s
  cases hgoes : Statement.goesOn (s.statementWith line) with
  | true =>
    rw [runStatement_of_goesOn hgoes]
    rfl
  | false =>
    have hcomplete : Keeps fatal (ofAction (s.complete (s.statementWith line))) :=
      keeps_fatal_of_standing (Session.keeps_standing_perform _ _)
    rw [runStatement_of_not_goesOn hgoes, hcomplete]
    rfl

/-- No line changes whether failures are fatal. -/
theorem keeps_fatal_dispatch (line : String) : Keeps fatal (dispatch line) := by
  intro s
  rw [dispatch_eq]
  by_cases hstatement : ∃ text, s.route line = .statement text
  · obtain ⟨text, hroute⟩ := hstatement
    rw [hroute]
    exact (keeps_fatal_runStatement text).bind (fun _ => .pure false) s
  by_cases hload : ∃ path, s.route line = .command .load path
  · obtain ⟨path, hroute⟩ := hload
    rw [hroute]
    exact (keeps_fatal_load path).bind (fun _ => .pure false) { s with workspace.events := _ }
  · exact (Sparing.turn (not_exists.1 hstatement) (not_exists.1 hload) s).workspace.fatal

end Shell

end NormalOrder
