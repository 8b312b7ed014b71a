import NormalOrder.Proofs.Nameless.Constants
import NormalOrder.Proofs.Roster
import NormalOrder.Proofs.Runs
import NormalOrder.Proofs.Step

/-!
# The bindings that a reduction depends on

A term reaches the names that stand in it for something outside, and with a binding the names that
its definition reaches. Reduction stays among them: every term on the way has only names that the
first one reaches. So environments that agree on these names make the same runs and traces, term by
term, and a binding that is not reached can be made, changed or left out.
-/

namespace NormalOrder

namespace Environment

/-- The names that a term reaches through the definitions of an environment. -/
inductive Reaches (env : Environment) (t : Term) : String → Prop
  | free {x : String} (h : x ∈ t.free) : Reaches env t x
  | reference {x : String} (h : x ∈ t.references) : Reaches env t x
  | freeInDefinition {x y : String} {d : Term} (h : Reaches env t x) (hd : env.find? x = some d)
      (hy : y ∈ d.free) : Reaches env t y
  | referenceInDefinition {x y : String} {d : Term} (h : Reaches env t x)
      (hd : env.find? x = some d) (hy : y ∈ d.references) : Reaches env t y

theorem closedUnder_reaches (env : Environment) (t : Term) :
    Nameless.ClosedUnder env.definitions (env.Reaches t) := by
  intro x form hx hform y hy
  obtain ⟨d, hd, rfl⟩ := Option.map_eq_some_iff.1 hform
  rcases (Term.mem_constants_globalForm d).1 hy with hreference | hfree
  · exact .referenceInDefinition hx hd hreference
  · exact .freeInDefinition hx hd hfree

end Environment

namespace Reduction

variable {env env' : Environment}

theorem expand_congr {x : String} (h : env.find? x = env'.find? x) (binders : List String) :
    expand env binders x = expand env' binders x := by
  rw [expand, expand, h]

/-- A step looks up no names but the constants of the term's form. -/
theorem stepUnder_congr (binders : List String) (t : Term)
    (h : ∀ x ∈ (t.nameless .shared binders).constants, env.find? x = env'.find? x) :
    stepUnder env binders t = stepUnder env' binders t := by
  induction t generalizing binders with
  | var x =>
    by_cases hx : x ∈ binders
    · simp only [stepUnder, if_pos hx]
    · have hsame : env.find? x = env'.find? x := by
        apply h
        simp only [Term.nameless, if_neg hx]
        exact List.mem_cons_self
      simp only [stepUnder, if_neg hx, expand_congr hsame]
  | ref x => exact expand_congr (h x List.mem_cons_self) binders
  | lam x b ih => simp only [stepUnder, ih (x :: binders) h]
  | app f a ihf iha =>
    obtain ⟨hf, ha⟩ := List.forall_mem_append.1 h
    by_cases hlam : ∃ x b, f = .lam x b
    · obtain ⟨x, b, rfl⟩ := hlam
      rfl
    · have hne : ∀ x b, f ≠ .lam x b := fun x b he => hlam ⟨x, b, he⟩
      rw [stepUnder_app env binders a hne, stepUnder_app env' binders a hne, ihf binders hf,
        iha binders ha]

/-- All names that stand in a term for something outside are in a set. -/
def NamesWithin (S : String → Prop) (t : Term) : Prop :=
  ∀ x ∈ t.globalForm.constants, S x

theorem namesWithin_step {S : String → Prop} (closed : Nameless.ClosedUnder env.definitions S)
    (t u : Term) (ht : NamesWithin S t) (h : step env t = some u) : NamesWithin S u := by
  have hform : t.globalForm.contract? env.definitions = some u.globalForm := by
    rw [← map_step, h]
    rfl
  exact Nameless.constants_of_contract? closed ht hform

theorem namesWithin_reaches (env : Environment) (t : Term) : NamesWithin (env.Reaches t) t := by
  intro x hx
  rcases (Term.mem_constants_globalForm t).1 hx with hreference | hfree
  · exact .reference hreference
  · exact .free hfree

/-- Environments that agree on all names that a term reaches trace it alike. -/
theorem trace_congr {t : Term} (h : ∀ x, env.Reaches t x → env.find? x = env'.find? x) (b : Bounds)
    (patience : Nat) : trace env b patience t = trace env' b patience t := by
  have hsame : ∀ u, NamesWithin (env.Reaches t) u → step env u = step env' u := by
    intro u hu
    exact stepUnder_congr [] u fun x hx => h x (hu x hx)
  exact traceFrom_congr (namesWithin_step (env.closedUnder_reaches t)) hsame _ 0
    (namesWithin_reaches env t)

/-- Runs and traces of a term are the same in all environments that agree on the names that it
reaches, among them those in which other names have been entered or changed; and every name that
comes free or referred to on the way is one that the term reaches. -/
theorem trace_depends_on_reached_names (env : Environment) (t : Term) (b : Bounds)
    (patience : Nat) :
    (∀ env' : Environment, (∀ x, env.Reaches t x → env.find? x = env'.find? x) →
      trace env b patience t = trace env' b patience t ∧
        run env b patience t = run env' b patience t) ∧
    (∀ pairs : List (String × Term), (∀ p ∈ pairs, ¬env.Reaches t p.1) →
      trace env b patience t = trace (env.insertAll pairs) b patience t ∧
        run env b patience t = run (env.insertAll pairs) b patience t) ∧
    (∀ u ∈ (trace env b patience t).1, ∀ x, x ∈ u.free ∨ x ∈ u.references → env.Reaches t x) ∧
    (∀ r, run env b patience t = some r →
      ∀ x, x ∈ r.term.free ∨ x ∈ r.term.references → env.Reaches t x) := by
  have hagree : ∀ env' : Environment, (∀ x, env.Reaches t x → env.find? x = env'.find? x) →
      trace env b patience t = trace env' b patience t ∧
        run env b patience t = run env' b patience t := by
    intro env' h
    have htrace := trace_congr h b patience
    exact ⟨htrace, by rw [run_eq_snd_trace, run_eq_snd_trace, htrace]⟩
  have hwithin : ∀ u, NamesWithin (env.Reaches t) u →
      ∀ x, x ∈ u.free ∨ x ∈ u.references → env.Reaches t x := by
    intro u hu x hx
    exact hu x ((Term.mem_constants_globalForm u).2 hx.symm)
  obtain ⟨hterms, hresult⟩ := traceFrom_forall (b := b)
    (namesWithin_step (env.closedUnder_reaches t)) (b.looks patience) 0 (namesWithin_reaches env t)
  refine ⟨hagree, ?_, fun u hu => hwithin u (hterms u hu), ?_⟩
  · intro pairs hpairs
    apply hagree
    intro x hx
    refine (Roster.find?_insertAll_of_not_mem env pairs ?_).symm
    rintro p hp rfl
    exact hpairs p hp hx
  · intro r hr
    rw [run_eq_snd_trace] at hr
    exact hwithin r.term (hresult r hr)

/-- The binder `y` is renamed to `y1` on the way, and a binding of that name makes no difference. -/
theorem trace_depends_on_reached_names_renamed_binder :
    let env : Environment := Roster.ofList [("k", .lam "x" (.lam "y" (.var "x")))]
    let t : Term := .app (.var "k") (.var "y")
    let other : List (String × Term) := [("y1", .var "k")]
    (∀ p ∈ other, ¬env.Reaches t p.1) ∧
      trace env ⟨none, none⟩ 3 t =
        ([.app (.lam "x" (.lam "y" (.var "x"))) (.var "y"), .lam "y1" (.var "y")],
          some ⟨.lam "y1" (.var "y"), 2, .halted⟩) ∧
      trace env ⟨none, none⟩ 3 t = trace (env.insertAll other) ⟨none, none⟩ 3 t := by
  intro env t other
  have hreaches : ∀ x, env.Reaches t x → x ∈ ["k", "y"] := by
    intro x hx
    induction hx with
    | free h => exact h
    | reference h => cases h
    | freeInDefinition _ hd hy ih =>
      -- Of the two names only `k` has a definition, which is closed.
      rcases List.mem_pair.1 ih with rfl | rfl
      · cases hd
        cases hy
      · cases hd
    | referenceInDefinition _ hd hy ih =>
      rcases List.mem_pair.1 ih with rfl | rfl
      · cases hd
        cases hy
      · cases hd
  have hother : ∀ p ∈ other, ¬env.Reaches t p.1 := by
    intro p hp hreached
    obtain rfl := List.mem_singleton.1 hp
    exact absurd (hreaches _ hreached) (by decide)
  refine ⟨hother, by decide +kernel, ?_⟩
  exact ((trace_depends_on_reached_names env t ⟨none, none⟩ 3).2.1 other hother).1

end Reduction

end NormalOrder
