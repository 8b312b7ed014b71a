import NormalOrder.Proofs.Normalization
import NormalOrder.Proofs.ReadBack
import NormalOrder.Proofs.Runs

/-!
# Expanding what was read back

Names of closed abstractions are replaced by the definitions. If this leaves a normal form, then it
is what a run does, definition by definition and without any other step: no definition comes to
stand where it could be applied. So the run keeps all other names as they are, those of binders
included.
-/

namespace NormalOrder

namespace Environment

variable {env : Environment}

/-- A term below binders, with the definitions of closed abstractions in place of their names. -/
def expandClosed (env : Environment) (bound : List String) : Term → Term
  | .var x => if x ∈ bound then .var x else (env.closedDefinition? x).getD (.var x)
  | .ref x => (env.closedDefinition? x).getD (.ref x)
  | .lam x b => .lam x (env.expandClosed (x :: bound) b)
  | .app f a => .app (env.expandClosed bound f) (env.expandClosed bound a)

theorem nameless_getD_closedDefinition? (bound : List String) {x : String} {t : Term}
    (ht : t.nameless .shared bound = .const x) :
    ((env.closedDefinition? x).getD t).nameless .shared bound =
      Nameless.unfold env.closedForm? (.const x) := by
  rw [Nameless.unfold, closedForm?]
  cases hx : env.closedDefinition? x with
  | none => exact ht
  | some d =>
    have hfree := (mem_readable_iff.1 (closedDefinition?_eq_some_iff.1 hx)).2.2
    exact Term.nameless_of_free_eq_nil hfree .shared bound

theorem nameless_expandClosed (bound : List String) (t : Term) :
    (env.expandClosed bound t).nameless .shared bound =
      (t.nameless .shared bound).unfold env.closedForm? := by
  induction t generalizing bound with
  | var x =>
    by_cases hx : x ∈ bound
    · simp only [expandClosed, if_pos hx, Term.nameless, Nameless.unfold]
    · simp only [expandClosed, if_neg hx]
      rw [nameless_getD_closedDefinition? bound (x := x)]
      · simp only [Term.nameless, if_neg hx]
        rfl
      · simp only [Term.nameless, if_neg hx]
        rfl
  | ref x => exact nameless_getD_closedDefinition? bound rfl
  | lam x b ih => simp only [expandClosed, Term.nameless, Nameless.unfold, ih]
  | app f a ihf iha => simp only [expandClosed, Term.nameless, Nameless.unfold, ihf, iha]

theorem closedDefinition?_eq_none {x : String} (h : env.find? x = none) :
    env.closedDefinition? x = none := by
  rw [closedDefinition?, h]

/-- Nothing is replaced in a term that names no closed abstraction. -/
theorem expandClosed_of_constants (bound : List String) (t : Term)
    (h : ∀ x ∈ (t.nameless .shared bound).constants, env.closedDefinition? x = none) :
    env.expandClosed bound t = t := by
  induction t generalizing bound with
  | var x =>
    by_cases hx : x ∈ bound
    · simp only [expandClosed, if_pos hx]
    · have hnone : env.closedDefinition? x = none := by
        apply h
        simp only [Term.nameless, if_neg hx]
        exact List.mem_cons_self
      simp only [expandClosed, if_neg hx, hnone, Option.getD_none]
  | ref x =>
    have hnone : env.closedDefinition? x = none := h x List.mem_cons_self
    simp only [expandClosed, hnone, Option.getD_none]
  | lam x b ih => simp only [expandClosed, ih (x :: bound) h]
  | app f a ihf iha =>
    obtain ⟨hf, ha⟩ := List.forall_mem_append.1 h
    simp only [expandClosed, ihf bound hf, iha bound ha]

end Environment

namespace Reduction

variable {env : Environment}

open Environment

/-- If the constant is normal once it is unfolded, then its expansion is a closed definition. -/
theorem expand_closed (h : env.ReferenceFree) {bound : List String} {x : String} {t : Term}
    (hx : expand env bound x = some t)
    (hn : (Nameless.unfold env.closedForm? (.const x)).Normal env.definitions) :
    env.closedDefinition? x = some t ∧ env.expandClosed bound t = t := by
  obtain ⟨d, hd, rfl⟩ := Option.map_eq_some_iff.1 hx
  cases hclosed : env.closedDefinition? x with
  | none =>
    -- Then the constant is left as it is, which is not normal because it has a definition.
    rw [Nameless.unfold, closedForm?, hclosed] at hn
    have hnone : env.definitions x = none := hn
    rw [Environment.definitions, hd] at hnone
    cases hnone
  | some c =>
    have hmem := closedDefinition?_eq_some_iff.1 hclosed
    obtain ⟨hc, -, hfree⟩ := mem_readable_iff.1 hmem
    obtain rfl : d = c := Option.some.inj (hd.symm.trans hc)
    have hprotect : d.protect (d.free.filter (· ∈ bound)) = d := by
      rw [hfree]
      exact Term.protect_nil d
    rw [hprotect]
    refine ⟨rfl, expandClosed_of_constants bound d ?_⟩
    rw [Term.nameless_of_free_eq_nil hfree]
    have hconstants := Term.constants_eq_nil_of_closed hfree (h.of_mem_readable hmem)
    intro y hy
    rw [Term.globalForm] at hconstants
    rw [hconstants] at hy
    cases hy

/-- A step towards a normal form that has all closed definitions expanded is one of the
expansions. -/
theorem StepsTo.expandClosed_eq (h : env.ReferenceFree) {bound : List String} {t u : Term}
    (hstep : StepsTo env bound t u)
    (hn : ((t.nameless .shared bound).unfold env.closedForm?).Normal env.definitions) :
    env.expandClosed bound u = env.expandClosed bound t := by
  induction hstep with
  | unbound hx hd =>
    simp only [Term.nameless, if_neg hx] at hn
    obtain ⟨hdef, hsame⟩ := expand_closed h hd hn
    simp only [expandClosed, if_neg hx, hdef, Option.getD_some, hsame]
  | reference hd =>
    obtain ⟨hdef, hsame⟩ := expand_closed h hd hn
    simp only [expandClosed, hdef, Option.getD_some, hsame]
  | body _ ih => simp only [expandClosed, ih hn]
  | contraction => cases hn.1
  | function a _ _ ih => simp only [expandClosed, ih hn.2.1]
  | argument _ _ _ ih => simp only [expandClosed, ih hn.2.2]

theorem expandClosed_of_step_eq_none {t : Term} (h : step env t = none) :
    env.expandClosed [] t = t := by
  have hnormal := (step_eq_none_iff env t).1 h
  apply expandClosed_of_constants
  intro x hx
  have hnone := Nameless.eq_none_of_normal hnormal x hx
  exact closedDefinition?_eq_none (Option.map_eq_none_iff.1 hnone)

/-- If a term has a normal form once its closed definitions are expanded, then a run of it that
halts has expanded them and done nothing else. -/
theorem term_of_run_expandClosed (h : env.ReferenceFree) {t : Term} {b : Bounds} {patience : Nat}
    {r : Result} (hn : (t.globalForm.unfold env.closedForm?).Normal env.definitions)
    (hrun : run env b patience t = some r) (hr : r.outcome = .halted) :
    r.term = env.expandClosed [] t := by
  have hform : ∀ u, env.expandClosed [] u = env.expandClosed [] t →
      (u.globalForm.unfold env.closedForm?).Normal env.definitions := by
    intro u hu
    have hsame : u.globalForm.unfold env.closedForm? = t.globalForm.unfold env.closedForm? := by
      rw [Term.globalForm, Term.globalForm, ← nameless_expandClosed, ← nameless_expandClosed, hu]
    rw [hsame]
    exact hn
  have hkept : env.expandClosed [] r.term = env.expandClosed [] t := by
    refine runFrom_forall (p := fun u => env.expandClosed [] u = env.expandClosed [] t) ?_ rfl hrun
    intro u v hu hstep
    exact ((stepsTo_of_stepUnder hstep).expandClosed_eq h (hform u hu)).trans hu
  rw [← hkept]
  exact (expandClosed_of_step_eq_none (step_eq_none_of_halted hrun hr)).symm

/-- A run without bounds expands the closed definitions if that leaves a normal form. -/
theorem run_expandClosed (h : env.ReferenceFree) {t : Term}
    (hn : (t.globalForm.unfold env.closedForm?).Normal env.definitions) :
    ∃ steps looks, ∀ patience, looks ≤ patience →
      run env .unbounded patience t = some ⟨env.expandClosed [] t, steps, .halted⟩ := by
  have hcontracts : Relation.ReflTransGen (Nameless.Contracts env.definitions) t.globalForm
      (t.globalForm.unfold env.closedForm?) :=
    Nameless.contracts_unfold (fun _ _ => definitions_of_closedForm?) t.globalForm
  obtain ⟨r, looks, houtcome, -, hrun⟩ := run_of_contracts hcontracts hn
  have hterm : r.term = env.expandClosed [] t :=
    term_of_run_expandClosed h hn (hrun looks (Nat.le_refl looks)) houtcome
  refine ⟨r.steps, looks, fun patience hle => ?_⟩
  rw [hrun patience hle, ← hterm, ← houtcome]

end Reduction

end NormalOrder
