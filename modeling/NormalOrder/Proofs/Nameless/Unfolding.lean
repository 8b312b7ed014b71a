import Mathlib.Logic.Relation
import NormalOrder.Proofs.Nameless.Constants

/-!
# Unfolding constants

Constants are replaced by their definitions all at once. This can be done by contractions, one
constant after another, and it does nothing to a term none of whose constants has a definition.
-/

namespace NormalOrder.Nameless

open Relation

variable {κ : Type} {δ δ' : κ → Option (Nameless κ)}

def unfold (δ : κ → Option (Nameless κ)) : Nameless κ → Nameless κ
  | bound i => bound i
  | const c => (δ c).getD (const c)
  | lam b => lam (b.unfold δ)
  | app f a => app (f.unfold δ) (a.unfold δ)

theorem unfold_of_constants {t : Nameless κ} (h : ∀ c ∈ t.constants, δ c = none) :
    t.unfold δ = t := by
  induction t with
  | bound i => rfl
  | const c => simp only [unfold, h c List.mem_cons_self, Option.getD_none]
  | lam b ih => simp only [unfold, ih h]
  | app f a ihf iha =>
    obtain ⟨hf, ha⟩ := List.forall_mem_append.1 h
    simp only [unfold, ihf hf, iha ha]

/-- The constants of a normal term have no definitions. -/
theorem eq_none_of_normal {t : Nameless κ} (h : t.Normal δ) : ∀ c ∈ t.constants, δ c = none := by
  induction t with
  | bound i => simp [constants]
  | const c =>
    intro e he
    obtain rfl := List.mem_singleton.1 he
    exact h
  | lam b ih => exact ih h
  | app f a ihf iha => exact List.forall_mem_append.2 ⟨ihf h.2.1, iha h.2.2⟩

section Contractions

theorem contracts_lam {t u : Nameless κ} (h : Contracts δ t u) : Contracts δ (lam t) (lam u) := by
  obtain ⟨p, hp⟩ := h
  exact ⟨_, .body hp⟩

theorem contracts_function {t u : Nameless κ} (a : Nameless κ) (h : Contracts δ t u) :
    Contracts δ (app t a) (app u a) := by
  obtain ⟨p, hp⟩ := h
  exact ⟨_, .function a hp⟩

theorem contracts_argument {t u : Nameless κ} (f : Nameless κ) (h : Contracts δ t u) :
    Contracts δ (app f t) (app f u) := by
  obtain ⟨p, hp⟩ := h
  exact ⟨_, .argument f hp⟩

/-- Unfolding some of the definitions is a sequence of contractions. -/
theorem contracts_unfold (hsub : ∀ c d, δ' c = some d → δ c = some d) (t : Nameless κ) :
    ReflTransGen (Contracts δ) t (t.unfold δ') := by
  induction t with
  | bound i => exact .refl
  | const c =>
    cases hc : δ' c with
    | none =>
      rw [unfold, hc]
      exact .refl
    | some d =>
      rw [unfold, hc]
      exact .single ⟨[], .delta (hsub c d hc)⟩
  | lam b ih => exact ih.lift lam fun _ _ => contracts_lam
  | app f a ihf iha =>
    have hf := ihf.lift (fun g => app g a) fun _ _ => contracts_function a
    have ha := iha.lift (app (f.unfold δ')) fun _ _ => contracts_argument _
    exact hf.trans ha

end Contractions

end NormalOrder.Nameless
