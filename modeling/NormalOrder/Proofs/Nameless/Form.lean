import Mathlib.Data.List.Basic
import Mathlib.Logic.Function.Basic
import NormalOrder.Proofs.Nameless.Basic
import NormalOrder.Term.Basic

/-!
# The nameless form of a term

A variable becomes the number of its binder among the abstractions around it, or a constant if none
of them binds it. What constants free variables and references become is left open: they are kept
apart to compare terms letter by letter, and brought together where both stand for a binding of the
same name.

Operations on terms are followed through assignments of nameless terms to names. Renaming,
substitution and protection each change an assignment at some names, and the form of a term does not
depend on the names that are not free in it.
-/

namespace NormalOrder

variable {κ : Type}

/-- The constants that free variables and references become. -/
structure Naming (κ : Type) where
  free : String → κ
  reference : String → κ

def Naming.shared : Naming String := ⟨id, id⟩

/-- The form of a term below the given binders, the innermost first. -/
def Term.nameless (ν : Naming κ) (binders : List String) : Term → Nameless κ
  | var x => if x ∈ binders then .bound (binders.idxOf x) else .const (ν.free x)
  | ref x => .const (ν.reference x)
  | lam x b => .lam (b.nameless ν (x :: binders))
  | app f a => .app (f.nameless ν binders) (a.nameless ν binders)

/-- The form of a whole term, with free variables and references read as global names. -/
def Term.globalForm (t : Term) : Nameless String :=
  t.nameless .shared []

abbrev Assignment (κ : Type) := String → Nameless κ

namespace Assignment

def ofBinders (ν : Naming κ) (binders : List String) : Assignment κ := fun x =>
  if x ∈ binders then .bound (binders.idxOf x) else .const (ν.free x)

def below (ρ : Assignment κ) (x : String) : Assignment κ :=
  Function.update (fun y => (ρ y).lift 0) x (.bound 0)

theorem below_self (ρ : Assignment κ) (x : String) : ρ.below x x = .bound 0 :=
  Function.update_self ..

theorem below_of_ne (ρ : Assignment κ) {x y : String} (h : y ≠ x) :
    ρ.below x y = (ρ y).lift 0 :=
  Function.update_of_ne h ..

theorem ofBinders_nil (ν : Naming κ) : ofBinders ν [] = fun x => .const (ν.free x) := by
  funext x
  simp [ofBinders]

theorem ofBinders_cons (ν : Naming κ) (x : String) (binders : List String) :
    ofBinders ν (x :: binders) = (ofBinders ν binders).below x := by
  funext y
  by_cases h : y = x
  · subst h
    simp [ofBinders, below_self]
  · have hx : x ≠ y := fun he => h he.symm
    by_cases hy : y ∈ binders
    · simp [ofBinders, below_of_ne _ h, List.idxOf_cons_ne _ hx, hy, Nameless.lift]
    · simp [ofBinders, below_of_ne _ h, h, hy, Nameless.lift]

theorem lift_below (ρ : Assignment κ) (x : String) (k : Nat) :
    (fun y => (ρ.below x y).lift (k + 1)) = Assignment.below (fun y => (ρ y).lift k) x := by
  funext y
  by_cases h : y = x
  · subst h
    simp [below_self, Nameless.lift]
  · simp only [below_of_ne _ h]
    exact (Nameless.lift_lift (ρ y) (Nat.zero_le k)).symm

theorem subst_below (ρ : Assignment κ) (x : String) (k : Nat) (s : Nameless κ) :
    (fun y => (ρ.below x y).subst (k + 1) (s.lift 0)) =
      Assignment.below (fun y => (ρ y).subst k s) x := by
  funext y
  by_cases h : y = x
  · subst h
    simp [below_self, Nameless.subst]
  · simp only [below_of_ne _ h]
    exact Nameless.subst_lift (ρ y) s (Nat.zero_le k)

/-- What stands below an abstraction is changed alike inside and outside of it, unless the
abstraction binds the name. -/
theorem update_below (ρ : Assignment κ) {x y : String} (s : Nameless κ) (h : x ≠ y) :
    Function.update (ρ.below y) x (s.lift 0) = Assignment.below (Function.update ρ x s) y := by
  funext z
  by_cases hz : z = x
  · subst hz
    rw [below_of_ne _ h, Function.update_self, Function.update_self]
  · rw [Function.update_of_ne hz]
    by_cases hy : z = y
    · subst hy
      rw [below_self, below_self]
    · rw [below_of_ne _ hy, below_of_ne _ hy, Function.update_of_ne hz]

/-- Substitution for the innermost binder is an assignment to its name. -/
theorem instantiate_below (ρ : Assignment κ) (x : String) (s : Nameless κ) :
    (fun y => (ρ.below x y).instantiate s) = Function.update ρ x s := by
  funext y
  by_cases h : y = x
  · subst h
    rw [below_self, Function.update_self]
    rfl
  · rw [below_of_ne _ h, Function.update_of_ne h]
    exact Nameless.subst_lift_self (ρ y) 0 s

end Assignment

namespace Term

/-- The form of a term with the assigned terms for its free variables. -/
def assign (ν : Naming κ) (ρ : Assignment κ) : Term → Nameless κ
  | var x => ρ x
  | ref x => .const (ν.reference x)
  | lam x b => .lam (b.assign ν (ρ.below x))
  | app f a => .app (f.assign ν ρ) (a.assign ν ρ)

theorem nameless_eq_assign (ν : Naming κ) (binders : List String) (t : Term) :
    t.nameless ν binders = t.assign ν (.ofBinders ν binders) := by
  induction t generalizing binders with
  | var x => rfl
  | ref x => rfl
  | lam x b ih => simp only [nameless, assign, ih, Assignment.ofBinders_cons]
  | app f a ihf iha => simp only [nameless, assign, ihf, iha]

theorem mem_free_lam {x y : String} {b : Term} : x ∈ (lam y b).free ↔ x ∈ b.free ∧ x ≠ y := by
  simp [free]

/-- Only the names that are free in a term matter. -/
theorem assign_congr (ν : Naming κ) {ρ σ : Assignment κ} (t : Term)
    (h : ∀ x ∈ t.free, ρ x = σ x) : t.assign ν ρ = t.assign ν σ := by
  induction t generalizing ρ σ with
  | var x => exact h x (by simp [free])
  | ref x => rfl
  | lam x b ih =>
    have hb : ∀ y ∈ b.free, ρ.below x y = σ.below x y := by
      intro y hy
      by_cases hx : y = x
      · subst hx
        rw [Assignment.below_self, Assignment.below_self]
      · rw [Assignment.below_of_ne _ hx, Assignment.below_of_ne _ hx,
          h y (mem_free_lam.2 ⟨hy, hx⟩)]
    simp only [assign, ih hb]
  | app f a ihf iha =>
    have hf := ihf fun x hx => h x (List.mem_append_left _ hx)
    have ha := iha fun x hx => h x (List.mem_append_right _ hx)
    simp only [assign, hf, ha]

theorem assign_update_of_not_free (ν : Naming κ) (ρ : Assignment κ) {x : String} (s : Nameless κ)
    {t : Term} (h : x ∉ t.free) : t.assign ν (Function.update ρ x s) = t.assign ν ρ := by
  apply assign_congr
  intro y hy
  have hne : y ≠ x := by
    rintro rfl
    exact h hy
  exact Function.update_of_ne hne ..

theorem lift_assign (ν : Naming κ) (ρ : Assignment κ) (t : Term) (k : Nat) :
    (t.assign ν ρ).lift k = t.assign ν fun x => (ρ x).lift k := by
  induction t generalizing ρ k with
  | var x => rfl
  | ref x => rfl
  | lam x b ih => simp only [assign, Nameless.lift, ih, Assignment.lift_below]
  | app f a ihf iha => simp only [assign, Nameless.lift, ihf, iha]

theorem subst_assign (ν : Naming κ) (ρ : Assignment κ) (t : Term) (k : Nat) (s : Nameless κ) :
    (t.assign ν ρ).subst k s = t.assign ν fun x => (ρ x).subst k s := by
  induction t generalizing ρ k s with
  | var x => rfl
  | ref x => rfl
  | lam x b ih => simp only [assign, Nameless.subst, ih, Assignment.subst_below]
  | app f a ihf iha => simp only [assign, Nameless.subst, ihf, iha]

theorem assign_below_of_not_free (ν : Naming κ) (ρ : Assignment κ) {x : String} {t : Term}
    (h : x ∉ t.free) : t.assign ν (ρ.below x) = (t.assign ν ρ).lift 0 := by
  rw [lift_assign]
  exact assign_update_of_not_free ν _ _ h

/-- Contracting an abstraction with its argument assigns the argument to the binder. -/
theorem instantiate_assign_below (ν : Naming κ) (ρ : Assignment κ) (x : String) (b : Term)
    (s : Nameless κ) :
    (b.assign ν (ρ.below x)).instantiate s = b.assign ν (Function.update ρ x s) := by
  rw [← Assignment.instantiate_below]
  exact subst_assign ν (ρ.below x) b 0 s

theorem scoped_nameless (ν : Naming κ) (binders : List String) (t : Term) :
    (t.nameless ν binders).Scoped binders.length := by
  induction t generalizing binders with
  | var x =>
    by_cases h : x ∈ binders
    · simp only [nameless, if_pos h]
      exact List.idxOf_lt_length_iff.2 h
    · simp only [nameless, if_neg h, Nameless.Scoped]
  | ref x => exact trivial
  | lam x b ih => exact ih (x :: binders)
  | app f a ihf iha => exact ⟨ihf binders, iha binders⟩

end Term

end NormalOrder
