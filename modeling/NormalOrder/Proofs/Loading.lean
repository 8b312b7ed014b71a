import NormalOrder.Proofs.Grouping
import NormalOrder.Proofs.Printing
import NormalOrder.Text.Utf8.RoundTrip

/-!
# Loading runs the groups of a file

Loading a file runs its groups of lines as statements one after another. The bindings that it leaves
and what it prints are those of the statements in front of the first one that cannot be read,
whether or not an evaluation among them fails. That the file is registered meanwhile is seen in
neither of them.
-/

namespace NormalOrder

open NormalOrder.Action Statement

def Statement.Numbered.readable (s : Numbered) : Bool :=
  Text.isBlankText s.text || (parse s.text).toBool

structure Workspace.Matches (w v : Workspace) : Prop where
  environment : v.session.environment = w.session.environment
  printed : v.printed = w.printed

theorem Workspace.Matches.trans {w v u : Workspace} (h : w.Matches v) (h' : v.Matches u) :
    w.Matches u :=
  ⟨h'.environment.trans h.environment, h'.printed.trans h.printed⟩

namespace Session

variable {w v w' : Workspace} {path path' line : String} {s : Numbered} {f : Failure}

namespace Alike

theorem symm (h : Alike w v) : Alike v w := by
  obtain ⟨reporter, hsession⟩ := h.session
  refine ⟨⟨w.session.reporter, ?_⟩, h.interrupt.symm, h.patience.symm, h.printed.symm⟩
  rw [hsession]

theorem register (w : Workspace) (path : String) (entry : Option Traceback.Entry) :
    Alike w (w.register path entry) :=
  ⟨⟨_, rfl⟩, rfl, rfl, rfl⟩

theorem lineEvaluations (h : Alike w v) (line : String) :
    lineEvaluations line v = lineEvaluations line w := by
  obtain ⟨reporter, hsession⟩ := h.session
  have hevaluation : ∀ t, evaluation? t v = evaluation? t w := by
    intro t
    rw [evaluation?, evaluation?, hsession, h.interrupt, h.patience]
    rfl
  simp only [Session.lineEvaluations, hevaluation]

end Alike

/-- A line that fails has changed no binding and has printed at most the terms on the way of its
evaluation. -/
theorem of_add_eq_error {number : Int} (h : add line number path w = .error f w') :
    w'.session.environment = w.session.environment ∧
      w'.printed = w.printed ++ if w.session.settings.trace then
        (lineEvaluations line w).flatMap fun e => e.course.map traceLine else [] := by
  obtain ⟨hblank, -, hw'⟩ := add_eq_error h
  refine ⟨by rw [hw']; rfl, ?_⟩
  rw [add_apply hblank] at h
  rcases bind_eq_error h with hexecute | ⟨_, w₁, -, hforget⟩
  · simp only [lineEvaluations, hblank, Bool.false_eq_true, if_false]
    cases hparse : parse line with
    | error fault =>
      rw [hparse] at hexecute
      cases hexecute
      simp [Workspace.register, Workspace.printed]
    | ok statement =>
      rw [hparse] at hexecute
      cases statement with
      | bind name t => cases hexecute
      | bare t =>
        rcases bind_eq_error hexecute with hevaluate | ⟨r, w₁, -, hmodify⟩
        · have hprinted := printed_evaluate t (w.register path (some ⟨line, number⟩))
          rw [hevaluate] at hprinted
          exact hprinted
        · cases hmodify
  · cases hforget

/-- Where a statement fails in one of two alike workspaces, it fails in the other with the same
bindings and the same output. -/
theorem matches_of_perform_eq_error (hwv : Alike w v) (h : perform path s w = .error f w') :
    ∃ f' v', perform path' s v = .error f' v' ∧ w'.Matches v' := by
  cases hv : perform path' s v with
  | ok u v' =>
    -- If it succeeded in the second workspace, it would in the first one too.
    obtain ⟨w₁, hok, -⟩ :=
      simulates_perform (.refl s.text) s.number s.number path' path v w u v' hwv.symm hv
    cases h.symm.trans hok
  | error f' v' =>
    obtain ⟨henvironment, hprinted⟩ := of_add_eq_error (perform_eq_error h)
    obtain ⟨henvironment', hprinted'⟩ := of_add_eq_error (perform_eq_error hv)
    obtain ⟨reporter, hsession⟩ := hwv.session
    refine ⟨f', v', rfl, ?_, ?_⟩
    · rw [henvironment, henvironment', hsession]
    · rw [hprinted, hprinted', hwv.printed, hwv.lineEvaluations, hsession]

end Session

end NormalOrder
