import NormalOrder.Proofs.Alike
import NormalOrder.Proofs.Attribution

/-!
# What a session evaluates and prints

Every evaluation that a call makes is named here by all that it depends on, so that it can be
computed apart from the session. Statements make at most one each, and a file makes those of its
statements up to the first that fails. What is printed are the terms of an evaluation, if that is
set, and the results.
-/

namespace NormalOrder

/-- A reduction with all that it depends on. -/
structure Evaluation where
  environment : Environment
  bounds : Reduction.Bounds
  patience : Nat
  term : Term

namespace Evaluation

/-- The terms that come after the first one. -/
def course (e : Evaluation) : List Term :=
  (Reduction.trace e.environment e.bounds e.patience e.term).1

def result? (e : Evaluation) : Option Reduction.Result :=
  Reduction.run e.environment e.bounds e.patience e.term

end Evaluation

namespace Session

open NormalOrder.Action Statement

variable {w w₁ : Workspace} {t : Term}

def traceLine (t : Term) : String :=
  "  → " ++ t.render ++ "\n"

def evaluation? (t : Term) (w : Workspace) : Option Evaluation :=
  let under (limit : Option Int) : Evaluation :=
    { environment := w.session.environment
      bounds := ⟨limit, w.interrupt⟩
      patience := w.patience
      term := t }
  match w.session.limit with
  | .unlimited => some (under none)
  | .steps count => some (under (some count))
  | .blank => none

theorem of_evaluation? {e : Evaluation} (h : evaluation? t w = some e) :
    e.environment = w.session.environment ∧ e.term = t := by
  rw [evaluation?] at h
  split at h
  · cases h
    exact ⟨rfl, rfl⟩
  · cases h
    exact ⟨rfl, rfl⟩
  · cases h

theorem evaluate_apply (t : Term) (w : Workspace) :
    evaluate t w =
      match evaluation? t w with
      | none => .error (.breakdown .blankLimit) w
      | some e => (do followTrace e.course; conclude t e.result? : Action Reduction.Result) w := by
  have hcourse : ∀ limit, bound w = .ok limit w → ∀ e : Evaluation,
      e = { environment := w.session.environment
            bounds := ⟨limit, w.interrupt⟩
            patience := w.patience
            term := t } →
      evaluate t w =
        (do followTrace e.course; conclude t e.result? : Action Reduction.Result) w := by
    rintro limit hbound e rfl
    rw [evaluate_eq, bind_of_ok (get_eq_ok w), bind_of_ok hbound, Evaluation.course,
      Evaluation.result?, Reduction.run_eq_snd_trace]
  have hbound := bound_apply w
  cases hlimit : w.session.limit with
  | blank =>
    rw [evaluate_of_blank hlimit]
    simp only [evaluation?, hlimit]
  | unlimited =>
    rw [hlimit] at hbound
    simp only [evaluation?, hlimit]
    exact hcourse none hbound _ rfl
  | steps count =>
    rw [hlimit] at hbound
    simp only [evaluation?, hlimit]
    exact hcourse (some count) hbound _ rfl

/-- The result of an evaluation in a session is that of the evaluation alone. -/
theorem result?_of_evaluate {r : Reduction.Result} (h : evaluate t w = .ok r w₁) :
    ∃ e, evaluation? t w = some e ∧ e.result? = some r := by
  rw [evaluate_apply] at h
  split at h
  · cases h
  · next e he =>
    obtain ⟨_, _, -, hconclude⟩ := bind_eq_ok h
    exact ⟨e, he, eq_some_of_conclude hconclude⟩

section Printed

theorem keeps_printed_emit {e : Event} (h : e.printed? = none) :
    Keeps Workspace.printed (emit e) := by
  intro w
  change (w.events.push e).toList.filterMap Event.printed? = w.printed
  simp [Workspace.printed, List.filterMap_append, h]

theorem keeps_printed_conclude (t : Term) (result? : Option Reduction.Result) :
    Keeps Workspace.printed (conclude t result?) := by
  rcases result? with - | ⟨last, steps, outcome⟩
  · exact .throw _
  · refine .bind (keeps_printed_emit rfl) fun _ => ?_
    cases outcome with
    | halted => exact .pure _
    | limitReached => exact .bind (.bind .session fun _ => keeps_printed_emit rfl) fun _ => .pure _
    | cancelled => exact .bind (.bind .session fun _ => keeps_printed_emit rfl) fun _ => .pure _

theorem printed_append (w : Workspace) (texts : List String) :
    Workspace.printed { w with events := w.events ++ (texts.map fun s => .printed s).toArray } =
      w.printed ++ texts := by
  have htexts : (texts.map fun s => Event.printed s).filterMap Event.printed? = texts := by
    rw [List.filterMap_map]
    exact List.filterMap_some
  simp only [Workspace.printed, Array.toList_append, List.filterMap_append, htexts]

theorem exists_followTrace (terms : List Term) (w : Workspace) :
    ∃ w₁, followTrace terms w = .ok () w₁ ∧ w₁.printed =
      w.printed ++ if w.session.settings.trace then terms.map traceLine else [] := by
  have hlines : ∀ w, terms.forM (fun t => printLine ("  → " ++ t.render)) w =
      (terms.map fun t => "  → " ++ t.render).forM printLine w := by
    induction terms with
    | nil => exact fun _ => rfl
    | cons t terms ih =>
      intro w
      exact ih _
  rw [followTrace, bind_of_ok (session_eq_ok w)]
  split
  · have hprint := (hlines w).trans (forM_printLine _ w)
    refine ⟨_, bind_of_ok hprint, ?_⟩
    have htexts := printed_append w (terms.map traceLine)
    simp only [List.map_map] at htexts ⊢
    exact htexts
  · exact ⟨_, rfl, (List.append_nil _).symm⟩

/-- The terms on the way are printed or not, and that is all that an evaluation prints. -/
theorem printed_evaluate (t : Term) (w : Workspace) :
    (stateLeft (evaluate t w)).printed =
      w.printed ++ if w.session.settings.trace then
        (evaluation? t w).toList.flatMap fun e => e.course.map traceLine else [] := by
  rw [evaluate_apply]
  cases evaluation? t w with
  | none => simp [stateLeft]
  | some e =>
    obtain ⟨w₁, hfollow, hprinted⟩ := exists_followTrace e.course w
    have hconclude := keeps_printed_conclude t e.result? w₁
    simp only [bind_of_ok hfollow, hconclude, hprinted, Option.toList, List.flatMap_cons,
      List.flatMap_nil, List.append_nil]

theorem printed_flush (w : Workspace) :
    (stateLeft (flush w)).printed = w.printed ++ w.session.results.map (· ++ "\n") := by
  rw [flush_apply]
  have htexts := printed_append w (w.session.results.map (· ++ "\n"))
  rw [List.map_map] at htexts
  exact htexts

end Printed

def lineEvaluations (line : String) (w : Workspace) : List Evaluation :=
  if Text.isBlankText line then []
  else
    match parse line with
    | .ok (.bare t) => (evaluation? t w).toList
    | _ => []

def fileEvaluations (path : String) : List Numbered → Workspace → List Evaluation
  | [], _ => []
  | s :: rest, w =>
    lineEvaluations s.text w ++
      match perform path s w with
      | .ok _ w₁ => fileEvaluations path rest w₁
      | .error _ _ => []

def Call.evaluations (c : Call) (w : Workspace) : List Evaluation :=
  match c.program? w with
  | some (path, text) => fileEvaluations path (statements (Text.lines text)) (w.register path none)
  | none =>
    match c with
    | add line _ _ => lineEvaluations line w
    | evaluate t => (evaluation? t w).toList
    | _ => []

end Session

end NormalOrder
