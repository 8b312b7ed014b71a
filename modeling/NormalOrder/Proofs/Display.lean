import NormalOrder.Proofs.ReadBack
import NormalOrder.Proofs.RoundTrip
import NormalOrder.Session.Evaluation

/-!
# What is displayed can be read

A term is displayed in two passes, which know nothing of each other: closed bindings are read back
as references, and binders that would hide a reference are written under fresh names. Neither lets a
binder capture a name that the other has put in, so the text is read as a term with the same
meaning.
-/

namespace NormalOrder

namespace Environment

theorem isIdentifier_readBackUnder {env : Environment}
    (hkeys : ∀ e ∈ env.entries, Token.isIdentifier e.1 = true) (bound : List String) {t : Term}
    (ht : ∀ x ∈ t.names, Token.isIdentifier x = true) :
    ∀ x ∈ (readBackUnder env.readable bound t).names, Token.isIdentifier x = true := by
  intro x hx
  rcases mem_names_of_readBackUnder bound t x hx with h | h
  · exact ht x h
  · obtain ⟨e, he, rfl⟩ := List.mem_map.1 h
    exact hkeys e he

end Environment

namespace Session

theorem display_of_names {s : Session} (h : s.settings.names = true) (t : Term) :
    s.display t = (s.environment.readBack t).render := by
  rw [display, if_pos h]

/-- The text of a term with names read back is read as a term that has the same form once the closed
abstractions among the bindings are unfolded in both. -/
theorem display_denotes_term (s : Session) (t : Term) (hnames : s.settings.names = true)
    (hrefs : ∀ e ∈ s.environment.entries, e.2.references = [])
    (hkeys : ∀ e ∈ s.environment.entries, Token.isIdentifier e.1 = true)
    (ht : ∀ x ∈ t.names, Token.isIdentifier x = true) :
    ∃ u, Statement.parse (s.display t) = .ok (.bare u) ∧
      u.globalForm.unfold s.environment.closedForm? =
        t.globalForm.unfold s.environment.closedForm? := by
  have hread := Environment.isIdentifier_readBackUnder hkeys [] ht
  refine ⟨(s.environment.readBack t).shown, ?_, ?_⟩
  · rw [display_of_names hnames]
    exact Term.parse_render hread
  · rw [Term.globalForm_shown]
    exact Environment.unfold_globalForm_readBack hrefs t

/-- The binder `y` hides a reference and has to be renamed. The first name for it would be `y1`,
which is what the identity below it is read back as. -/
theorem display_denotes_term_fresh_binding :
    let environment : Environment := Roster.ofList [("y1", .lam "z" (.var "z"))]
    let s : Session := { Session.start "<in>" {} false with environment }
    let t : Term := .lam "y" (.app (.app (.ref "y") (.lam "x" (.var "x"))) (.var "y"))
    s.display t = "λy2. y y1 y2" ∧
    (s.settings.names = true ∧ (∀ e ∈ s.environment.entries, e.2.references = []) ∧
      (∀ e ∈ s.environment.entries, Token.isIdentifier e.1 = true) ∧
      ∀ x ∈ t.names, Token.isIdentifier x = true) ∧
    ∃ u, Statement.parse (s.display t) = .ok (.bare u) ∧
      u.globalForm.unfold s.environment.closedForm? =
        .lam (.app (.app (.const "y") (.lam (.bound 0))) (.bound 0)) := by
  intro environment s t
  have hnames : s.settings.names = true := rfl
  have hrefs : ∀ e ∈ s.environment.entries, e.2.references = [] := by decide
  have hkeys : ∀ e ∈ s.environment.entries, Token.isIdentifier e.1 = true := by decide
  have ht : ∀ x ∈ t.names, Token.isIdentifier x = true := by decide
  exact ⟨by decide +kernel, ⟨hnames, hrefs, hkeys, ht⟩,
    display_denotes_term s t hnames hrefs hkeys ht⟩

end Session

end NormalOrder
