import NormalOrder.Proofs.Display
import NormalOrder.Proofs.History
import NormalOrder.Proofs.ReadBack.Settled

/-!
# Displayed normal forms are stable

What is displayed of a normal form is read as a term that evaluates to the same normal form and is
displayed as the same text. With names on, that evaluation expands the names that were read back and
does nothing else, and the same names are read back again.
-/

namespace NormalOrder

namespace Reduction

/-- A step from a term whose names are identifiers leads to another one. -/
theorem isIdentifier_of_step {env : Environment} (henv : env.Plain) (t u : Term)
    (ht : ∀ x ∈ t.names, Token.isIdentifier x = true) (h : step env t = some u) :
    ∀ x ∈ u.names, Token.isIdentifier x = true := by
  have hfresh : ∀ name avoid, Token.isIdentifier name = true →
      Token.isIdentifier (freshName name avoid) = true :=
    fun name avoid hname => Token.isIdentifier_freshName hname avoid
  have hdefinitions : ∀ e ∈ env.entries, ∀ x ∈ e.2.names, Token.isIdentifier x = true :=
    fun e he => (henv.definitions e he).names
  exact (stepsTo_of_stepUnder h).forall_names hfresh hdefinitions ht

/-- The names of what an evaluation leads to are identifiers if all names that go into it are. -/
theorem isIdentifier_of_run {env : Environment} (henv : env.Plain) {b : Bounds} {patience : Nat}
    {t : Term} {r : Result} (ht : ∀ x ∈ t.names, Token.isIdentifier x = true)
    (h : run env b patience t = some r) : ∀ x ∈ r.term.names, Token.isIdentifier x = true :=
  runFrom_forall (isIdentifier_of_step henv) ht h

end Reduction

namespace Session

open Reduction

variable {s : Session} {n : Term}

/-- The text of a term is read as one that halts with the same form and is displayed as the same
text. -/
structure Rerun (s : Session) (n u : Term) (r : Result) : Prop where
  parse : Statement.parse (s.display n) = .ok (.bare u)
  outcome : r.outcome = .halted
  form : r.term.globalForm = n.globalForm
  display : s.display r.term = s.display n
  run : ∃ looks, ∀ patience, looks ≤ patience →
    Reduction.run s.environment .unbounded patience u = some r

theorem rerun_of_names (hplain : s.environment.Plain) (hnames : s.settings.names = true)
    (hn : n.globalForm.Normal s.environment.definitions)
    (hids : ∀ x ∈ n.names, Token.isIdentifier x = true) : ∃ u r, Rerun s n u r := by
  have hfree := hplain.referenceFree
  have hread : ∀ x ∈ (s.environment.readBack n).names, Token.isIdentifier x = true :=
    Environment.isIdentifier_readBackUnder hplain.keys [] hids
  have hsettled : s.environment.Settled [] (.ofBinders .shared []) (s.environment.readBack n) :=
    Environment.settled_readBackUnder hfree [] hn
  have hform : (s.environment.readBack n).shown.globalForm.unfold s.environment.closedForm? =
      n.globalForm := by
    rw [Term.globalForm_shown, Environment.unfold_globalForm_readBack hfree,
      Environment.unfold_of_normal hn]
  obtain ⟨steps, looks, hrun⟩ := run_expandClosed hfree (hform.symm ▸ hn)
  refine ⟨(s.environment.readBack n).shown, _, ?_, rfl, ?_, ?_, looks, hrun⟩
  · rw [display_of_names hnames]
    exact Term.parse_render hread
  · rw [← hform]
    exact Environment.nameless_expandClosed ..
  · rw [display_of_names hnames, display_of_names hnames]
    exact Environment.renderAt_readBackUnder_expandClosed hfree .whole [] _
      (fun _ _ => List.not_mem_nil) hsettled

theorem rerun_of_not_names (hplain : s.environment.Plain) (hnames : s.settings.names = false)
    (hn : n.globalForm.Normal s.environment.definitions)
    (hids : ∀ x ∈ n.names, Token.isIdentifier x = true) : ∃ u r, Rerun s n u r := by
  have hdisplay : ∀ t, s.display t = t.render := by
    intro t
    rw [display, hnames]
    rfl
  have hshown : n.shown.globalForm.Normal s.environment.definitions := by
    rw [Term.globalForm_shown]
    exact hn
  have hunfold : (n.shown.globalForm.unfold s.environment.closedForm?).Normal
      s.environment.definitions := by
    rw [Environment.unfold_of_normal hshown]
    exact hshown
  obtain ⟨steps, looks, hrun⟩ := run_expandClosed hplain.referenceFree hunfold
  -- There is nothing to expand in a normal form, so the run ends where it starts.
  rw [expandClosed_of_step_eq_none ((step_eq_none_iff _ _).2 hshown)] at hrun
  refine ⟨n.shown, _, ?_, rfl, Term.globalForm_shown n, ?_, looks, hrun⟩
  · rw [hdisplay]
    exact Term.parse_render hids
  · rw [hdisplay, hdisplay]
    exact Term.renderAt_shown .whole n

def unlimited (w : Workspace) (patience : Nat) : Workspace :=
  { w with session.settings.maxSteps := .unlimited, interrupt := none, patience }

/-- The text of a normal form is read as a term that halts, if no limit is set, with the same form,
and the result is displayed as the same text. -/
theorem displayed_normal_form_stable (w w₁ : Workspace) (source : String) (t : Term) (r : Result)
    (henv : w.session.environment.Reached) (hsource : Statement.parse source = .ok (.bare t))
    (heval : evaluate t w = .ok r w₁) (hr : r.outcome = .halted) :
    ∃ u r₂ looks, Statement.parse (w₁.session.display r.term) = .ok (.bare u) ∧
      r₂.outcome = .halted ∧ r₂.term.globalForm = r.term.globalForm ∧
      ∀ patience, looks ≤ patience → ∃ w₂, evaluate u (unlimited w₁ patience) = .ok r₂ w₂ ∧
        w₂.session.display r₂.term = w₁.session.display r.term := by
  obtain ⟨b, hrun⟩ := run_of_evaluate heval
  have hsession : w₁.session = w.session := session_of_evaluate heval
  have hplain : w₁.session.environment.Plain := hsession ▸ henv.plain
  rw [← hsession] at hrun
  have hn := (step_eq_none_iff _ _).1 (step_eq_none_of_halted hrun hr)
  have hids := isIdentifier_of_run hplain (Statement.plain_of_parse hsource).1.names hrun
  obtain ⟨u, r₂, h⟩ : ∃ u r₂, Rerun w₁.session r.term u r₂ := by
    by_cases hnames : w₁.session.settings.names = true
    · exact rerun_of_names hplain hnames hn hids
    · exact rerun_of_not_names hplain (Bool.eq_false_iff.2 hnames) hn hids
  obtain ⟨looks, hlooks⟩ := h.run
  refine ⟨u, r₂, looks, h.parse, h.outcome, h.form, fun patience hle => ?_⟩
  have hlimit : (unlimited w₁ patience).session.limit = .unlimited := rfl
  obtain ⟨w₂, hw₂⟩ := evaluate_of_run hlimit rfl (hlooks patience hle) h.outcome
  refine ⟨w₂, hw₂, ?_⟩
  rw [session_of_evaluate hw₂]
  exact h.display

/-- The binder `y` hides the `y` that `g` is defined as and is written as `y2`, since `y1` is what
the identity is read back as. -/
theorem displayed_normal_form_stable_fresh_binding :
    let start : Workspace :=
      { session := Session.start "<in>" { maxSteps := .unlimited } false, patience := 10 }
    let w := afterAll [.line "y1 = λz. z" 1 "<in>", .line "g = y" 2 "<in>"] start
    let t : Term := .lam "y" (.app (.app (.var "g") (.lam "z" (.var "z"))) (.var "y"))
    let r : Result :=
      ⟨.lam "y" (.app (.app (.ref "y") (.lam "z" (.var "z"))) (.var "y")), 1, .halted⟩
    w.session.environment.Reached ∧ Statement.parse "λy. g (λz. z) y" = .ok (.bare t) ∧
    ∃ w₁, evaluate t w = .ok r w₁ ∧ w₁.session.display r.term = "λy2. y y1 y2" ∧
      ∃ u r₂ looks, Statement.parse (w₁.session.display r.term) = .ok (.bare u) ∧
        r₂.outcome = .halted ∧ r₂.term.globalForm = r.term.globalForm ∧
        ∀ patience, looks ≤ patience → ∃ w₂, evaluate u (unlimited w₁ patience) = .ok r₂ w₂ ∧
          w₂.session.display r₂.term = w₁.session.display r.term := by
  intro start w t r
  have henv : w.session.environment.Reached := ⟨_, start, rfl, rfl⟩
  have hsource : Statement.parse "λy. g (λz. z) y" = .ok (.bare t) := by decide +kernel
  obtain ⟨w₁, heval⟩ : ∃ w₁, evaluate t w = .ok r w₁ :=
    evaluate_of_run (by decide +kernel) (by decide +kernel) (by decide +kernel) rfl
  have hdisplay : w₁.session.display r.term = "λy2. y y1 y2" := by
    rw [session_of_evaluate heval]
    decide +kernel
  exact ⟨henv, hsource, w₁, heval, hdisplay,
    displayed_normal_form_stable w w₁ _ t r henv hsource heval rfl⟩

end Session

end NormalOrder
