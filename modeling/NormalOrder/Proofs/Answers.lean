import NormalOrder.Proofs.Loading
import NormalOrder.Proofs.Recovery
import NormalOrder.Proofs.Standing

/-!
# Every result is shown

Every evaluation that comes to its end has an answer, which is the result as the settings want it
shown. A statement puts its answer with the results that wait, and what runs the statement shows
them at once. So a line of the shell prints all answers that it comes to, in order, and leaves no
result behind, even if it fails.
-/

namespace NormalOrder

/-- The result as it is shown, with the names of bindings or without. -/
def Evaluation.answer? (names : Bool) (e : Evaluation) : Option String :=
  e.result?.map fun r => (if names then e.environment.readBack r.term else r.term).render

/-- Between the two workspaces the answers have been printed, a line each, perhaps with other lines
before and after each of them. No result waits to be shown. -/
structure Workspace.Answered (answers : List String) (w w' : Workspace) : Prop where
  results : w'.session.results = []
  printed : ∃ more, w'.printed = w.printed ++ more ∧ (answers.map (· ++ "\n")).Sublist more

namespace Workspace.Answered

open NormalOrder.Action

variable {α β : Type} {answers answers' : List String} {w w' w'' : Workspace}

theorem of_spares (h : w.Spares w') (hresults : w.session.results = []) : Answered [] w w' := by
  obtain ⟨more, hmore⟩ := h.printed
  exact ⟨h.results.trans hresults, more, hmore.symm, List.nil_sublist more⟩

theorem trans (h : Answered answers w w') (h' : Answered answers' w' w'') :
    Answered (answers ++ answers') w w'' := by
  obtain ⟨more, hmore, hanswers⟩ := h.printed
  obtain ⟨more', hmore', hanswers'⟩ := h'.printed
  refine ⟨h'.results, more ++ more', ?_, ?_⟩
  · rw [hmore', hmore, List.append_assoc]
  · rw [List.map_append]
    exact hanswers.append hanswers'

theorem spares (h : Answered answers w w') (h' : w'.Spares w'') : Answered answers w w'' := by
  have hall := h.trans (of_spares h' h.results)
  rwa [List.append_nil] at hall

/-- What comes after a part that gives the answers runs no statement. -/
theorem bind {x : Action α} {f : α → Action β} (h : Answered answers w (stateLeft (x w)))
    (hf : ∀ a (w₁ : Workspace), w₁.Spares (stateLeft (f a w₁))) :
    Answered answers w (stateLeft ((x >>= f) w)) := by
  cases hrun : x w with
  | ok a w₁ =>
    rw [hrun] at h
    rw [bind_of_ok hrun]
    exact h.spares (hf a w₁)
  | error e w₁ =>
    rw [hrun] at h
    rw [bind_of_error hrun]
    exact h

end Workspace.Answered

namespace Session

open NormalOrder.Action Statement
open Workspace (Answered)

variable {w v w₁ : Workspace} {t : Term} {r : Reduction.Result} {f : Failure} {line path : String}
  {number : Int}

def answers (w : Workspace) (es : List Evaluation) : List String :=
  es.filterMap (·.answer? w.session.settings.names)

theorem answers_append (w : Workspace) (es es' : List Evaluation) :
    answers w (es ++ es') = answers w es ++ answers w es' :=
  List.filterMap_append

section Evaluated

/-- An evaluation that fails comes to no end. -/
theorem result?_of_evaluate_eq_error (h : evaluate t w = .error f w₁) {e : Evaluation}
    (he : evaluation? t w = some e) : e.result? = none := by
  rw [evaluate_apply, he] at h
  rcases bind_eq_error h with hcourse | ⟨_, w₂, -, hconclude⟩
  · obtain ⟨w₂, hfollow⟩ := followTrace_eq_ok e.course w
    cases hfollow.symm.trans hcourse
  · exact (conclude_eq_error hconclude).1

theorem answers_of_evaluate (h : evaluate t w = .ok r w₁) :
    answers w (evaluation? t w).toList = [w.session.display r.term] := by
  obtain ⟨e, he, hr⟩ := result?_of_evaluate h
  obtain ⟨henv, -⟩ := of_evaluation? he
  have hanswer : e.answer? w.session.settings.names = some (w.session.display r.term) := by
    rw [Evaluation.answer?, hr, henv, display]
    split <;> rfl
  simp [answers, he, hanswer]

theorem answers_of_evaluate_eq_error (h : evaluate t w = .error f w₁) :
    answers w (evaluation? t w).toList = [] := by
  cases he : evaluation? t w with
  | none => rfl
  | some e => simp [answers, Evaluation.answer?, result?_of_evaluate_eq_error h he]

end Evaluated

section Statements

/-- A term puts its answer behind the results that wait. -/
theorem results_execute_bare (line : String) (t : Term) (w : Workspace) :
    (stateLeft (execute line (.ok (.bare t)) w)).session.results =
      w.session.results ++ answers w (evaluation? t w).toList := by
  cases hevaluate : evaluate t w with
  | ok r w₁ =>
    have hstored : (stateLeft (execute line (.ok (.bare t)) w)).session.results =
        w₁.session.results ++ [w₁.session.display r.term] := by
      rw [execute, bind_of_ok hevaluate]
      rfl
    rw [hstored, session_of_evaluate hevaluate, answers_of_evaluate hevaluate]
  | error f w₁ =>
    have hkept : (stateLeft (execute line (.ok (.bare t)) w)).session.results =
        w₁.session.results := by
      rw [execute, bind_of_error hevaluate]
      rfl
    rw [hkept, (keeps_session_evaluate t).of_error hevaluate,
      answers_of_evaluate_eq_error hevaluate, List.append_nil]

/-- Of lines, only a term has an answer. -/
theorem results_add (line : String) (number : Int) (path : String) (w : Workspace) :
    (stateLeft (add line number path w)).session.results =
      w.session.results ++ answers w (lineEvaluations line w) := by
  rw [lineEvaluations]
  cases hblank : Text.isBlankText line with
  | true =>
    rw [add_of_blank number path hblank, if_pos rfl]
    exact (List.append_nil _).symm
  | false =>
    have hforget : ∀ _ : Unit, Keeps (·.session.results) (modifyTraceback (·.insert path none)) :=
      fun _ => .modify fun _ => rfl
    rw [add_apply hblank, if_neg Bool.false_ne_true, Keeps.stateLeft_bind hforget]
    rcases parse line with fault | (⟨name, t⟩ | t)
    · exact (List.append_nil _).symm
    · exact (List.append_nil _).symm
    · exact results_execute_bare line t (w.register path (some ⟨line, number⟩))

/-- Running a line only adds to what is printed. -/
theorem printed_isPrefix_add (line : String) (number : Int) (path : String) (w : Workspace) :
    w.printed <+: (stateLeft (add line number path w)).printed := by
  cases hblank : Text.isBlankText line with
  | true =>
    rw [add_of_blank number path hblank]
    exact List.prefix_rfl
  | false =>
    have hforget : ∀ _ : Unit, Keeps Workspace.printed (modifyTraceback (·.insert path none)) :=
      fun _ => .modify fun _ => rfl
    rw [add_apply hblank, Keeps.stateLeft_bind hforget]
    rcases parse line with fault | (⟨name, t⟩ | t)
    · exact List.prefix_rfl
    · exact (Workspace.Spares.push _ _).printed
    · have hanswer : ∀ r : Reduction.Result, Keeps Workspace.printed
          (modifySession fun s => { s with results := s.results ++ [s.display r.term] }) :=
        fun _ => .modify fun _ => rfl
      rw [execute, Keeps.stateLeft_bind hanswer, printed_evaluate]
      exact List.prefix_append _ _

variable (hresults : w.session.results = [])

include hresults

/-- A statement that is run shows its answer, and leaves no result even if it fails. -/
theorem answered_perform (path : String) (s : Numbered) :
    Answered (answers w (lineEvaluations s.text w)) w (stateLeft (perform path s w)) := by
  have hwaiting := results_add s.text s.number path w
  obtain ⟨more, hmore⟩ := printed_isPrefix_add s.text s.number path w
  rw [hresults, List.nil_append] at hwaiting
  cases hadd : add s.text s.number path w with
  | ok u w₁ =>
    rw [hadd] at hwaiting hmore
    have hshown := printed_flush w₁
    rw [perform, bind_of_ok hadd]
    refine ⟨by rw [flush_apply]; rfl, more ++ w₁.session.results.map (· ++ "\n"), ?_, ?_⟩
    · rw [hshown, ← List.append_assoc, hmore]
      rfl
    · rw [← hwaiting]
      exact List.sublist_append_right _ _
  | error f w₁ =>
    obtain ⟨-, -, hw₁⟩ := add_eq_error hadd
    have hnone : w₁.session.results = [] := by
      rw [hw₁]
      exact hresults
    rw [hadd] at hwaiting hmore
    have hanswers : answers w (lineEvaluations s.text w) = [] := hwaiting.symm.trans hnone
    rw [perform, bind_of_error hadd, hanswers]
    exact ⟨hnone, more, hmore.symm, List.nil_sublist more⟩

theorem answered_forM_perform (path : String) (ss : List Numbered) :
    Answered (answers w (fileEvaluations path ss w)) w (stateLeft (ss.forM (perform path) w)) := by
  induction ss generalizing w with
  | nil => exact .of_spares (.refl w) hresults
  | cons s ss ih =>
    have hs := answered_perform hresults path s
    rw [fileEvaluations, answers_append]
    cases hperform : perform path s w with
    | ok u w₁ =>
      have hstanding := (keeps_standing_perform path s).of_ok hperform
      have hsettings : w₁.session.settings = w.session.settings :=
        congrArg Standing.settings hstanding
      have hsame : ∀ es, answers w₁ es = answers w es := by
        intro es
        rw [answers, answers, hsettings]
      rw [hperform] at hs
      have hrest : Answered (answers w₁ (fileEvaluations path ss w₁)) w₁
          (stateLeft (ss.forM (perform path) w₁)) := ih hs.results
      rw [hsame] at hrest
      rw [forM_cons_of_ok hperform]
      exact hs.trans hrest
    | error f w₁ =>
      rw [hperform] at hs
      rw [forM_cons_of_error hperform]
      exact hs.trans (.of_spares (.refl w₁) hs.results)

/-- Loading shows the answers of a file up to the first statement that fails. -/
theorem answered_load (path : String) :
    Answered (answers w ((Call.load path).evaluations w)) w (stateLeft (load path w)) := by
  have hregister : Answered [] w (w.register path none) :=
    .of_spares ⟨rfl, rfl, List.prefix_rfl⟩ hresults
  rcases Call.load_cases path w with ⟨f, hnone, hload, -, -⟩ | ⟨text, hfile, hload⟩
  · have hevaluations : (Call.load path).evaluations w = [] := by
      simp [Call.evaluations, hnone]
    rw [hload, hevaluations]
    exact hregister
  · have hevaluations : (Call.load path).evaluations w =
        fileEvaluations path (statements (Text.lines text)) (w.register path none) := by
      simp [Call.evaluations, hfile]
    rw [hload, hevaluations, runText, bind_of_ok (session_eq_ok _)]
    have hrun := answered_forM_perform hregister.results path (statements (Text.lines text))
    exact hregister.trans (hrun.bind fun _ w₁ => ⟨rfl, rfl, (Workspace.Spares.push w₁ _).printed⟩)

end Statements

section Alike

theorem Alike.fileEvaluations (h : Alike w v) (path : String) (ss : List Numbered) :
    fileEvaluations path ss v = fileEvaluations path ss w := by
  induction ss generalizing w v with
  | nil => rfl
  | cons s ss ih =>
    rw [Session.fileEvaluations, Session.fileEvaluations, h.lineEvaluations]
    cases hperform : perform path s w with
    | ok u w₁ =>
      obtain ⟨v₁, hv, h₁⟩ :=
        simulates_perform (.refl s.text) s.number s.number path path w v u w₁ h hperform
      rw [hv]
      simp only [ih h₁]
    | error f w₁ =>
      obtain ⟨f', v₁, hv, -⟩ := matches_of_perform_eq_error h hperform
      rw [hv]

/-- What a file evaluates does not depend on the log. -/
theorem evaluations_load_logged (path : String) (record : Log.Record) (w : Workspace) :
    (Call.load path).evaluations { w with events := w.events.push (.logged record) } =
      (Call.load path).evaluations w := by
  have hlogged : Alike w { w with events := w.events.push (.logged record) } :=
    ⟨⟨_, rfl⟩, rfl, rfl, by simp [Workspace.printed, Event.printed?]⟩
  have hprogram : (Call.load path).program? { w with events := w.events.push (.logged record) } =
      (Call.load path).program? w := rfl
  cases hfile : (Call.load path).program? w with
  | none =>
    rw [hfile] at hprogram
    simp [Call.evaluations, hfile, hprogram]
  | some program =>
    have hregister : Alike (w.register program.1 none)
        (Workspace.register { w with events := w.events.push (.logged record) } program.1 none) :=
      ⟨⟨_, rfl⟩, rfl, rfl, hlogged.printed⟩
    rw [hfile] at hprogram
    simp [Call.evaluations, hfile, hprogram, hregister.fileEvaluations]

end Alike

end Session

namespace Shell

open NormalOrder.Action Turn Session
open Workspace (Answered)

variable {s : Shell} (hresults : s.workspace.session.results = [])

def Route.evaluations (s : Shell) : Route → List Evaluation
  | statement text =>
    if Statement.goesOn (s.statementWith text) then []
    else lineEvaluations (s.statementWith text) s.workspace
  | command .load path => if path.isEmpty then [] else (Call.load path).evaluations s.workspace
  | _ => []

def answers (s : Shell) (line : String) : List String :=
  Session.answers s.workspace ((s.route line).evaluations s)

include hresults

theorem answered_runStatement (text : String) :
    Answered (Session.answers s.workspace ((Route.statement text).evaluations s)) s.workspace
      (stateLeft (runStatement text s)).workspace := by
  rw [Route.evaluations]
  split
  · next hgoes =>
    simp only [runStatement_of_goesOn hgoes, stateLeft]
    exact .of_spares (.refl s.workspace) hresults
  · next hgoes =>
    simp only [runStatement_of_not_goesOn (eq_false_of_ne_true hgoes), stateLeft_ofAction, complete]
    exact answered_perform hresults s.workspace.session.path
      ⟨s.statementWith text, s.lineNumber + 1⟩

theorem answered_load (path : String) :
    Answered (Session.answers s.workspace ((Route.command .load path).evaluations s)) s.workspace
      (stateLeft (load path s)).workspace := by
  rw [Route.evaluations, load]
  split
  · exact .of_spares (.refl s.workspace) hresults
  · change Answered _ _ (stateLeft (ofAction (Session.load path) s)).workspace
    rw [stateLeft_ofAction]
    exact Session.answered_load hresults path

/-- Whatever a line is told to be, its answers are shown. -/
theorem answered_turn (r : Route) :
    Answered (Session.answers s.workspace (r.evaluations s)) s.workspace
      (stateLeft (r.turn s)).workspace := by
  by_cases hstatement : ∃ text, r = .statement text
  · obtain ⟨text, rfl⟩ := hstatement
    rw [Route.turn, stateLeft_bind_pure]
    exact answered_runStatement hresults text
  by_cases hload : ∃ path, r = .command .load path
  · obtain ⟨path, rfl⟩ := hload
    have hnoted := (s.spares_noted .load path).workspace
    have hevaluations : (Route.command .load path).evaluations (s.noted .load path) =
        (Route.command .load path).evaluations s := by
      simp only [Route.evaluations, noted, evaluations_load_logged]
    have hrun := answered_load (hnoted.results.trans hresults) path
    rw [hevaluations, ← stateLeft_turn_load] at hrun
    exact (Answered.of_spares hnoted hresults).trans hrun
  · have hnone : r.evaluations s = [] := by
      rw [Route.evaluations.eq_def]
      split
      · exact absurd ⟨_, rfl⟩ hstatement
      · exact absurd ⟨_, rfl⟩ hload
      · rfl
    rw [hnone]
    exact .of_spares (Sparing.turn (not_exists.1 hstatement) (not_exists.1 hload) s).workspace
      hresults

/-- A line prints the answers that it comes to, and leaves no result. -/
theorem answered_afterLine (line : String) :
    Answered (s.answers line) s.workspace (s.afterLine line).workspace := by
  have hturn := answered_turn hresults (s.route line)
  rw [← dispatch_eq] at hturn
  exact hturn.spares (s.spares_afterLine line).workspace

end Shell

end NormalOrder
