import NormalOrder.Proofs.Renaming
import NormalOrder.Term.Printer

/-!
# Terms as they are shown

The term that a written term is read back as: binders that would hide a reference have got a fresh
name, and references have become variables. It has the same form as the term itself, because no
binder of it has the name of a reference in its body.
-/

namespace NormalOrder.Term

variable {κ : Type}

section Reveal

variable (x : String) (b : Term)

theorem reveal_of_not_mem {x : String} {b : Term} (h : x ∉ b.references) : reveal x b = (x, b) := by
  rw [reveal, if_neg h]

/-- A binder is written under its own name, which no reference in the body has, or under a new
one. -/
theorem reveal_cases :
    (x ∉ b.references ∧ reveal x b = (x, b)) ∨
      ∃ q, q ∉ b.names ∧ (Token.isIdentifier x = true → Token.isIdentifier q = true) ∧
        reveal x b = (q, b.rename x q) := by
  by_cases h : x ∈ b.references
  · refine Or.inr ⟨freshName x (x :: b.names), ?_, fun hx => Token.isIdentifier_freshName hx _, ?_⟩
    · exact fun hq => freshName_not_mem x _ (List.mem_cons_of_mem _ hq)
    · rw [reveal, if_pos h]
  · exact Or.inl ⟨h, reveal_of_not_mem h⟩

theorem references_reveal : (reveal x b).2.references = b.references := by
  rcases reveal_cases x b with ⟨-, he⟩ | ⟨q, -, -, he⟩
  · rw [he]
  · rw [he, references_rename]

theorem references_subset_names (t : Term) : ∀ y ∈ t.references, y ∈ t.names := by
  induction t with
  | var y => simp [references]
  | ref y => simp [references, names]
  | lam y b ih =>
    intro z hz
    exact List.mem_cons_of_mem _ (ih z hz)
  | app f a ihf iha =>
    intro z hz
    rcases List.mem_append.1 hz with h | h
    · exact List.mem_append_left _ (ihf z h)
    · exact List.mem_append_right _ (iha z h)

/-- No reference in the body has the name under which the binder is written. -/
theorem fst_reveal_not_mem : (reveal x b).1 ∉ b.references := by
  rcases reveal_cases x b with ⟨hx, he⟩ | ⟨q, hq, -, he⟩
  · rw [he]
    exact hx
  · rw [he]
    exact fun h => hq (references_subset_names b q h)

theorem assign_reveal (ν : Naming κ) (ρ : Assignment κ) :
    (reveal x b).2.assign ν (ρ.below (reveal x b).1) = b.assign ν (ρ.below x) := by
  rcases reveal_cases x b with ⟨-, he⟩ | ⟨q, hq, -, he⟩
  · rw [he]
  · rw [he]
    exact assign_rename_below ν ρ hq

theorem nameless_reveal (ν : Naming κ) (binders : List String) :
    (reveal x b).2.nameless ν ((reveal x b).1 :: binders) = b.nameless ν (x :: binders) := by
  simp only [nameless_eq_assign, Assignment.ofBinders_cons]
  exact assign_reveal x b ν _

theorem isIdentifier_reveal {x : String} {b : Term}
    (h : ∀ y ∈ (lam x b).names, Token.isIdentifier y = true) :
    Token.isIdentifier (reveal x b).1 = true ∧
      ∀ y ∈ (reveal x b).2.names, Token.isIdentifier y = true := by
  obtain ⟨hx, hb⟩ := List.forall_mem_cons.1 h
  rcases reveal_cases x b with ⟨-, he⟩ | ⟨q, -, hq, he⟩
  · rw [he]
    exact ⟨hx, hb⟩
  · rw [he]
    refine ⟨hq hx, ?_⟩
    intro y hy
    rcases names_rename x q b y hy with hy | rfl
    · exact hb y hy
    · exact hq hx

end Reveal

/-- The term that a written term is read back as. -/
def shown (t : Term) : Term :=
  match t with
  | var x => var x
  | ref x => var x
  | lam x b => lam (reveal x b).1 (shown (reveal x b).2)
  | app f a => app (shown f) (shown a)
termination_by t.size
decreasing_by
  · simp [size]
  · simp only [size]; omega
  · simp only [size]; omega

theorem references_shown (t : Term) : t.shown.references = [] := by
  fun_induction shown t with
  | case1 x => rfl
  | case2 x => rfl
  | case3 x b ih => exact ih
  | case4 f a ihf iha => simp only [references, ihf, iha, List.append_nil]

theorem shown_of_references_eq_nil {t : Term} (h : t.references = []) : t.shown = t := by
  fun_induction shown t with
  | case1 x => rfl
  | case2 x => cases h
  | case3 x b ih =>
    have hb : b.references = [] := h
    have hx : x ∉ b.references := by simp [hb]
    rw [reveal_of_not_mem hx] at ih ⊢
    rw [ih hb]
  | case4 f a ihf iha =>
    obtain ⟨hf, ha⟩ := List.append_eq_nil_iff.1 h
    rw [ihf hf, iha ha]

/-- Below binders that have none of its references' names, a term is shown with its form. -/
theorem nameless_shown (binders : List String) (t : Term) (h : ∀ x ∈ t.references, x ∉ binders) :
    t.shown.nameless .shared binders = t.nameless .shared binders := by
  fun_induction shown t generalizing binders with
  | case1 x => rfl
  | case2 x =>
    have hx : x ∉ binders := h x (by simp [references])
    simp only [nameless, if_neg hx]
    rfl
  | case3 x b ih =>
    have hbody : ∀ y ∈ (reveal x b).2.references, y ∉ (reveal x b).1 :: binders := by
      intro y hy
      rw [references_reveal] at hy
      have hne : y ≠ (reveal x b).1 := by
        rintro rfl
        exact fst_reveal_not_mem x b hy
      exact fun hmem => (List.mem_cons.1 hmem).elim hne (h y hy)
    simp only [nameless, ih _ hbody, nameless_reveal]
  | case4 f a ihf iha =>
    have hf := ihf binders fun x hx => h x (List.mem_append_left _ hx)
    have ha := iha binders fun x hx => h x (List.mem_append_right _ hx)
    simp only [nameless, hf, ha]

theorem globalForm_shown (t : Term) : t.shown.globalForm = t.globalForm :=
  nameless_shown [] t fun _ _ => List.not_mem_nil

/-- What a term shows is written as the term is: no binder of it has to be renamed any more. -/
theorem renderAt_shown (position : Position) (t : Term) :
    t.shown.renderAt position = t.renderAt position := by
  fun_induction shown t generalizing position with
  | case1 x => rfl
  | case2 x => rw [renderAt, renderAt]
  | case3 x b ih =>
    have hclear : (reveal x b).1 ∉ (reveal x b).2.shown.references := by
      rw [references_shown]
      exact List.not_mem_nil
    rw [renderAt, renderAt, reveal_of_not_mem hclear, ih]
  | case4 f a ihf iha => rw [renderAt, renderAt, ihf, iha]

end NormalOrder.Term
