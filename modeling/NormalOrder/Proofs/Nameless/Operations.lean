import NormalOrder.Proofs.FreshName
import NormalOrder.Proofs.Nameless.Form
import NormalOrder.Proofs.Substitution
import NormalOrder.Term.Substitution

/-!
# Operations on terms and nameless forms

What substitution and protection do to the form of a term: each of them is a change of the
assignment that gives the form.
-/

namespace NormalOrder.Term

variable {κ : Type}

/-- A binder can be given another name: its variable is assigned like the new one's. -/
theorem assign_update_var (ν : Naming κ) (ρ : Assignment κ) {p q : String} {b : Term}
    (hq : q ∉ b.free) :
    b.assign ν (Function.update (ρ.below q) p (.bound 0)) = b.assign ν (ρ.below p) := by
  apply assign_congr
  intro y hy
  have hyq : y ≠ q := by
    rintro rfl
    exact hq hy
  by_cases hp : y = p
  · subst hp
    rw [Function.update_self, Assignment.below_self]
  · rw [Function.update_of_ne hp, Assignment.below_of_ne _ hyq, Assignment.below_of_ne _ hp]

section Substitution

variable (ν : Naming κ)

/-- Substitution below a binder that does not capture, given what it does to the body. -/
theorem assign_lam_of_body (ρ : Assignment κ) {p x : String} {b c s : Term} (hx : x ≠ p)
    (hp : p ∉ s.free)
    (hc : c.assign ν (ρ.below p) =
      b.assign ν (Function.update (ρ.below p) x (s.assign ν (ρ.below p)))) :
    (lam p c).assign ν ρ = (lam p b).assign ν (Function.update ρ x (s.assign ν ρ)) := by
  simp only [assign]
  rw [hc, assign_below_of_not_free ν ρ hp, Assignment.update_below ρ _ hx]

/-- The computation of a substitution assigns the form of the substituted term to the variable. -/
theorem Substitutes.assign_eq {t s u : Term} {x : String} (h : Substitutes t x s u)
    (ρ : Assignment κ) :
    u.assign ν ρ = t.assign ν (Function.update ρ x (s.assign ν ρ)) := by
  induction h generalizing ρ with
  | replaced x s => simp only [assign, Function.update_self]
  | other s hy => simp only [assign, Function.update_of_ne hy]
  | reference x s y => rfl
  | application _ _ ihf iha => simp only [assign, ihf, iha]
  | shadowed x s b =>
    have hfree : x ∉ (lam x b).free := fun h => (mem_free_lam.1 h).2 rfl
    exact (assign_update_of_not_free ν ρ _ hfree).symm
  | @absent x p b s hp hx =>
    have hfree : x ∉ (lam p b).free := fun h => hx (mem_free_lam.1 h).1
    exact (assign_update_of_not_free ν ρ _ hfree).symm
  | @renamed x p q s b b' c hp hx hs hq _ _ ihb ihc =>
    have hfresh := freshName_not_mem p (b.free ++ s.free ++ [x])
    rw [← hq] at hfresh
    simp only [List.mem_append, List.mem_singleton, not_or] at hfresh
    obtain ⟨⟨hqb, hqs⟩, hqx⟩ := hfresh
    -- The body is renamed first, and the substitution is made in what that gives.
    rw [assign_lam_of_body ν ρ (Ne.symm hqx) hqs (ihc (ρ.below q))]
    simp only [assign]
    rw [ihb]
    simp only [assign, Assignment.below_self]
    rw [assign_update_var ν _ hqb]
  | @inside x p s b c hp hx hs _ ihc =>
    exact assign_lam_of_body ν ρ (Ne.symm hp) hs (ihc (ρ.below p))

theorem assign_substitute (ρ : Assignment κ) (t : Term) (x : String) (s : Term) :
    (t.substitute x s).assign ν ρ = t.assign ν (Function.update ρ x (s.assign ν ρ)) :=
  (substitutes_substitute t x s).assign_eq ν ρ

/-- Substitution captures nothing: below any binders, it is nameless substitution for the variable
of a binder `x` right around the term. This is so whatever constants free variables and references
are taken for; a reference is a constant in any case, which is neither captured nor substituted
for. -/
theorem substitute_avoids_capture (binders : List String) (t : Term) (x : String) (s : Term) :
    (t.substitute x s).nameless ν binders =
      (t.nameless ν (x :: binders)).subst 0 (s.nameless ν binders) := by
  let ρ := Assignment.ofBinders ν binders
  calc
    (t.substitute x s).nameless ν binders = (t.substitute x s).assign ν ρ := nameless_eq_assign ..
    _ = t.assign ν (Function.update ρ x (s.assign ν ρ)) := assign_substitute ν ρ t x s
    _ = (t.assign ν (ρ.below x)).subst 0 (s.assign ν ρ) :=
      (instantiate_assign_below ν ρ x t (s.assign ν ρ)).symm
    _ = (t.nameless ν (x :: binders)).subst 0 (s.nameless ν binders) := by
      rw [nameless_eq_assign, nameless_eq_assign, Assignment.ofBinders_cons]

/-- The binder `y` is given the name `y1`, which the binder below it would capture. -/
example :
    (lam "y" (lam "y1" (app (app (var "x") (var "y")) (var "y1")))).substitute "x" (var "y") =
      lam "y1" (lam "y2" (app (app (var "y") (var "y1")) (var "y2"))) := by
  decide +kernel

end Substitution

section Protection

/-- Protected names are read as global ones, whatever stands around the term. -/
theorem assign_protect (ρ : Assignment String) (names : List String) (t : Term) :
    (t.protect names).assign .shared ρ =
      t.assign .shared fun x => if x ∈ names then .const x else ρ x := by
  induction t generalizing ρ names with
  | var x =>
    by_cases h : x ∈ names
    · simp only [protect, if_pos h, assign]
      rfl
    · simp only [protect, if_neg h, assign]
  | ref x => rfl
  | lam x b ih =>
    simp only [protect, assign, ih]
    congr 2
    funext y
    by_cases hx : y = x
    · subst hx
      simp [Assignment.below_self]
    · by_cases hy : y ∈ names
      · simp [Assignment.below_of_ne _ hx, hx, hy, Nameless.lift]
      · simp [Assignment.below_of_ne _ hx, hy]
  | app f a ihf iha => simp only [protect, assign, ihf, iha]

/-- A term with its free variables protected from the binders around it has the form that it has
when it stands alone. -/
theorem assign_protect_binders (binders : List String) (t : Term) :
    (t.protect (t.free.filter (· ∈ binders))).assign .shared (.ofBinders .shared binders) =
      t.globalForm := by
  rw [assign_protect, globalForm, nameless_eq_assign, Assignment.ofBinders_nil]
  apply assign_congr
  intro x hx
  by_cases h : x ∈ binders
  · rw [if_pos (by simp [hx, h])]
    rfl
  · rw [if_neg (by simp [h]), Assignment.ofBinders, if_neg h]

end Protection

end NormalOrder.Term
