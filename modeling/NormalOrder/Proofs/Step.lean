import NormalOrder.Proofs.Nameless.Contraction
import NormalOrder.Proofs.Nameless.Operations
import NormalOrder.Reduction.Step

/-!
# Steps contract the first redex

Through nameless forms, a step of a term is the contraction of the leftmost outermost redex, where
the redexes are those of the nameless calculus and nothing else: no renaming, protected name or
clash of names makes a difference. The step is followed below any binders, so that what is proved of
a part can be used for the whole.
-/

namespace NormalOrder

def Environment.definitions (env : Environment) : String → Option (Nameless String) := fun x =>
  (env.find? x).map Term.globalForm

theorem Environment.scoped_definitions (env : Environment) {x : String} {d : Nameless String}
    (h : env.definitions x = some d) : d.Scoped 0 := by
  obtain ⟨t, -, rfl⟩ := Option.map_eq_some_iff.1 h
  exact t.scoped_nameless .shared []

namespace Reduction

variable (env : Environment) (binders : List String)

theorem map_expand (x : String) :
    (expand env binders x).map (Term.nameless .shared binders) = env.definitions x := by
  unfold expand Environment.definitions
  rw [Option.map_map]
  congr 1
  funext d
  rw [Function.comp_apply, Term.nameless_eq_assign]
  exact Term.assign_protect_binders binders d

theorem stepUnder_app {f : Term} (a : Term) (hf : ∀ x b, f ≠ .lam x b) :
    stepUnder env binders (.app f a) =
      match stepUnder env binders f with
      | some f' => some (.app f' a)
      | none => (stepUnder env binders a).map (.app f) := by
  cases f with
  | lam x b => exact absurd rfl (hf x b)
  | _ => rfl

/-- The steps of a term below binders of the names in `bound`, by the place where they are made. -/
inductive StepsTo (env : Environment) : List String → Term → Term → Prop
  | unbound {bound : List String} {x : String} {d : Term} (hx : x ∉ bound)
    (hd : expand env bound x = some d) : StepsTo env bound (.var x) d
  | reference {bound : List String} {x : String} {d : Term} (hd : expand env bound x = some d) :
    StepsTo env bound (.ref x) d
  | body {bound : List String} {x : String} {b c : Term} (h : StepsTo env (x :: bound) b c) :
    StepsTo env bound (.lam x b) (.lam x c)
  | contraction (bound : List String) (x : String) (b a : Term) :
    StepsTo env bound (.app (.lam x b) a) (b.substitute x a)
  | function {bound : List String} {f g : Term} (a : Term) (hf : ∀ x b, f ≠ .lam x b)
    (h : StepsTo env bound f g) : StepsTo env bound (.app f a) (.app g a)
  | argument {bound : List String} {f a c : Term} (hf : ∀ x b, f ≠ .lam x b)
    (hnone : stepUnder env bound f = none) (h : StepsTo env bound a c) :
    StepsTo env bound (.app f a) (.app f c)

variable {env} in
theorem stepsTo_of_stepUnder {bound : List String} {t u : Term}
    (h : stepUnder env bound t = some u) :
    StepsTo env bound t u := by
  induction t generalizing bound u with
  | var x =>
    rw [stepUnder] at h
    split at h
    · cases h
    · next hx => exact .unbound hx h
  | ref x => exact .reference h
  | lam x b ih =>
    obtain ⟨c, hc, rfl⟩ := Option.map_eq_some_iff.1 h
    exact .body (ih hc)
  | app f a ihf iha =>
    by_cases hlam : ∃ x b, f = .lam x b
    · obtain ⟨x, b, rfl⟩ := hlam
      obtain rfl := Option.some.inj h
      exact .contraction bound x b a
    · have hf : ∀ x b, f ≠ .lam x b := fun x b he => hlam ⟨x, b, he⟩
      rw [stepUnder_app env bound a hf] at h
      split at h
      · next g hg =>
        obtain rfl := Option.some.inj h
        exact .function a hf (ihf hg)
      · next hnone =>
        obtain ⟨c, hc, rfl⟩ := Option.map_eq_some_iff.1 h
        exact .argument hf hnone (iha hc)

theorem isLam_nameless_of_ne_lam {f : Term} (hf : ∀ x b, f ≠ .lam x b) :
    (f.nameless .shared binders).isLam = false := by
  cases f with
  | var x =>
    rw [Term.nameless]
    split <;> rfl
  | ref x => rfl
  | lam x b => exact absurd rfl (hf x b)
  | app g c => rfl

/-- Contracting an abstraction is the same with and without names. -/
theorem nameless_substitute_binder (x : String) (b a : Term) :
    (b.substitute x a).nameless .shared binders =
      (b.nameless .shared (x :: binders)).instantiate (a.nameless .shared binders) := by
  simp only [Term.nameless_eq_assign]
  rw [Term.assign_substitute, Assignment.ofBinders_cons, Term.instantiate_assign_below]

/-- A step below binders is the leftmost outermost contraction of the nameless form. -/
theorem map_stepUnder (t : Term) :
    (stepUnder env binders t).map (Term.nameless .shared binders) =
      (t.nameless .shared binders).contract? env.definitions := by
  induction t generalizing binders with
  | var x =>
    by_cases h : x ∈ binders
    · simp only [stepUnder, if_pos h, Term.nameless, Nameless.contract?, Option.map_none]
    · simp only [stepUnder, if_neg h, Term.nameless, Nameless.contract?]
      exact map_expand env binders x
  | ref x => exact map_expand env binders x
  | lam x b ih =>
    simp only [stepUnder, Term.nameless, Nameless.contract?]
    rw [← ih (x :: binders), Option.map_map, Option.map_map]
    rfl
  | app f a ihf iha =>
    by_cases hlam : ∃ x b, f = .lam x b
    · obtain ⟨x, b, rfl⟩ := hlam
      simp only [stepUnder, Term.nameless, Nameless.contract?, Option.map_some]
      rw [nameless_substitute_binder]
    · have hf : ∀ x b, f ≠ .lam x b := fun x b he => hlam ⟨x, b, he⟩
      rw [stepUnder_app env binders a hf, Term.nameless,
        Nameless.contract?_app _ (isLam_nameless_of_ne_lam binders hf), ← ihf, ← iha]
      cases stepUnder env binders f with
      | some f' => rfl
      | none =>
        cases stepUnder env binders a with
        | some a' => rfl
        | none => rfl

theorem map_step (t : Term) :
    (step env t).map Term.globalForm = t.globalForm.contract? env.definitions :=
  map_stepUnder env [] t

theorem step_eq_none_iff (t : Term) :
    step env t = none ↔ t.globalForm.Normal env.definitions := by
  rw [← Nameless.contract?_eq_none_iff, ← map_step, Option.map_eq_none_iff]

/-- A term is in normal form for the stepper exactly if its form has no redex, and otherwise a step
contracts the leftmost outermost redex of its form. -/
theorem step_contracts_first_redex (t : Term) :
    (step env t = none ↔ t.globalForm.Normal env.definitions) ∧
      ∀ u, step env t = some u →
        Nameless.ContractsFirst env.definitions t.globalForm u.globalForm := by
  refine ⟨step_eq_none_iff env t, ?_⟩
  intro u hu
  apply Nameless.contractsFirst_of_contract?
  rw [← map_step, hu]
  rfl

/-- With `y` defined as `x`, what is first in `λx. y ((λz. z) x)` is `y`, and it becomes the global
`x` and not the bound one. -/
theorem step_contracts_first_redex_under_binder :
    let env : Environment := Roster.ofList [("y", .var "x")]
    let argument : Term := .app (.lam "z" (.var "z")) (.var "x")
    let t : Term := .lam "x" (.app (.var "y") argument)
    step env t = some (.lam "x" (.app (.ref "x") argument)) ∧
      Nameless.ContractsFirst env.definitions t.globalForm
        (.lam (.app (.const "x") (.app (.lam (.bound 0)) (.bound 0)))) := by
  intro env argument t
  have hstep : step env t = some (.lam "x" (.app (.ref "x") argument)) := by decide
  exact ⟨hstep, (step_contracts_first_redex env t).2 _ hstep⟩

end Reduction

end NormalOrder
