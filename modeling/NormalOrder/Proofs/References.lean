import NormalOrder.Proofs.Nameless.Constants
import NormalOrder.Proofs.Roster
import NormalOrder.Proofs.Runs
import NormalOrder.Proofs.Step

/-!
# Where references come from

A term that is read has no references, and reduction makes one only of a name that is free in a
definition. So a name that no definition mentions is never referred to: it stands in a result as it
was read.
-/

namespace NormalOrder

namespace Term

/-- The constants of a form are those of the references and those assigned to free variables. -/
theorem mem_constants_assign {κ : Type} {ν : Naming κ} {ρ : Assignment κ} {c : κ} (t : Term) :
    c ∈ (t.assign ν ρ).constants ↔
      (∃ y ∈ t.references, ν.reference y = c) ∨ ∃ x ∈ t.free, c ∈ (ρ x).constants := by
  induction t generalizing ρ with
  | var x => simp [assign, references, free]
  | ref x => simp [assign, references, free, Nameless.constants, eq_comm]
  | lam x b ih =>
    have hbelow : ∀ y, c ∈ (ρ.below x y).constants ↔ y ≠ x ∧ c ∈ (ρ y).constants := by
      intro y
      by_cases hy : y = x
      · subst hy
        simp [Assignment.below_self, Nameless.constants]
      · simp [Assignment.below_of_ne _ hy, Nameless.constants_lift, hy]
    simp only [assign, Nameless.constants, references, ih, hbelow, mem_free_lam, and_assoc]
  | app f a ihf iha =>
    simp only [assign, Nameless.constants, references, free, List.mem_append, ihf, iha,
      or_and_right, exists_or]
    exact or_or_or_comm

/-- Where free variables have no constants, those of the form are the references. -/
theorem mem_references_iff {y : String} (t : Term) :
    y ∈ t.references ↔ y ∈ (t.assign .shared fun _ => .bound 0).constants := by
  simp [mem_constants_assign, Nameless.constants, Naming.shared]

theorem mem_references_of_substitute {t s : Term} {x y : String}
    (h : y ∈ (t.substitute x s).references) : y ∈ t.references ∨ y ∈ s.references := by
  rw [mem_references_iff, assign_substitute, mem_constants_assign] at h
  rcases h with ⟨z, hz, rfl⟩ | ⟨z, -, hz⟩
  · exact Or.inl hz
  · by_cases hx : z = x
    · subst hx
      rw [Function.update_self, ← mem_references_iff] at hz
      exact Or.inr hz
    · rw [Function.update_of_ne hx] at hz
      cases hz

theorem mem_references_of_protect {names : List String} {t : Term} {y : String}
    (h : y ∈ (t.protect names).references) : y ∈ t.references ∨ y ∈ t.free := by
  rw [mem_references_iff, assign_protect, mem_constants_assign] at h
  rcases h with ⟨z, hz, rfl⟩ | ⟨z, hfree, hz⟩
  · exact Or.inl hz
  · split at hz
    · obtain rfl := List.mem_singleton.1 hz
      exact Or.inr hfree
    · cases hz

end Term

def Environment.Mentions (env : Environment) (y : String) : Prop :=
  ∃ e ∈ env.entries, y ∈ e.2.references ∨ y ∈ e.2.free

namespace Reduction

variable {env : Environment} {y : String}

theorem mentions_of_expand {bound : List String} {x : String} {t : Term}
    (h : expand env bound x = some t) (hy : y ∈ t.references) : env.Mentions y := by
  obtain ⟨d, hd, rfl⟩ := Option.map_eq_some_iff.1 h
  exact ⟨(x, d), Roster.find?_eq_some_iff.1 hd, Term.mem_references_of_protect hy⟩

/-- A step refers to nothing but what the term referred to and what definitions mention. -/
theorem StepsTo.mem_references {bound : List String} {t u : Term} (h : StepsTo env bound t u)
    (hy : y ∈ u.references) : y ∈ t.references ∨ env.Mentions y := by
  induction h with
  | unbound _ hd => exact Or.inr (mentions_of_expand hd hy)
  | reference hd => exact Or.inr (mentions_of_expand hd hy)
  | body _ ih => exact ih hy
  | contraction _ x b a =>
    have hparts : y ∈ b.references ∨ y ∈ a.references := Term.mem_references_of_substitute hy
    exact Or.inl (List.mem_append.2 hparts)
  | function a _ _ ih =>
    rcases List.mem_append.1 hy with hy | hy
    · exact (ih hy).imp_left (List.mem_append_left _)
    · exact Or.inl (List.mem_append_right _ hy)
  | argument _ _ _ ih =>
    rcases List.mem_append.1 hy with hy | hy
    · exact Or.inl (List.mem_append_left _ hy)
    · exact (ih hy).imp_left (List.mem_append_right _)

/-- So does a whole run. -/
theorem mentions_of_run {b : Bounds} {patience : Nat} {t : Term} {r : Result}
    (ht : t.references = []) (h : run env b patience t = some r) :
    ∀ y ∈ r.term.references, env.Mentions y := by
  refine runFrom_forall (p := fun u => ∀ y ∈ u.references, env.Mentions y) ?_ (by simp [ht]) h
  intro u v hu hstep y hy
  exact ((stepsTo_of_stepUnder hstep).mem_references hy).elim (hu y) id

end Reduction

end NormalOrder
