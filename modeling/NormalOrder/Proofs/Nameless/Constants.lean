import Mathlib.Tactic.Tauto
import NormalOrder.Proofs.Nameless.Contraction
import NormalOrder.Proofs.Nameless.Form

/-!
# The constants of a nameless term

A contraction brings in no constants but those of a definition that it unfolds, and the constants of
a term's form are the names that stand in it for something outside: its free variables and
references.
-/

namespace NormalOrder.Nameless

variable {κ : Type}

def constants : Nameless κ → List κ
  | bound _ => []
  | const c => [c]
  | lam b => b.constants
  | app f a => f.constants ++ a.constants

theorem constants_lift (t : Nameless κ) (k : Nat) : (t.lift k).constants = t.constants := by
  induction t generalizing k with
  | bound i =>
    rw [lift]
    split <;> rfl
  | const c => rfl
  | lam b ih => exact ih (k + 1)
  | app f a ihf iha => simp only [lift, constants, ihf, iha]

theorem mem_constants_of_subst {c : κ} (t : Nameless κ) (k : Nat) (s : Nameless κ)
    (h : c ∈ (t.subst k s).constants) : c ∈ t.constants ∨ c ∈ s.constants := by
  induction t generalizing k s with
  | bound i =>
    rw [subst] at h
    split at h
    · cases h
    · split at h
      · exact Or.inr h
      · cases h
  | const d => exact Or.inl h
  | lam b ih =>
    have hb := ih (k + 1) (s.lift 0) h
    rwa [constants_lift] at hb
  | app f a ihf iha =>
    rcases List.mem_append.1 h with hf | ha
    · exact (ihf k s hf).imp_left (List.mem_append_left _)
    · exact (iha k s ha).imp_left (List.mem_append_right _)

variable {δ : κ → Option (Nameless κ)}

/-- A set of constants that holds, with a constant, those of its definition. -/
def ClosedUnder (δ : κ → Option (Nameless κ)) (S : κ → Prop) : Prop :=
  ∀ c d, S c → δ c = some d → ∀ e ∈ d.constants, S e

/-- Contraction stays within a set of constants that is closed under definitions. -/
theorem constants_of_contract? {S : κ → Prop} (closed : ClosedUnder δ S) {t u : Nameless κ}
    (ht : ∀ c ∈ t.constants, S c) (h : contract? δ t = some u) : ∀ c ∈ u.constants, S c := by
  induction t generalizing u with
  | bound i => cases h
  | const c =>
    have hc : S c := ht c List.mem_cons_self
    exact closed c u hc h
  | lam b ih =>
    obtain ⟨b', hb, rfl⟩ := Option.map_eq_some_iff.1 h
    have hbody : ∀ c ∈ b'.constants, S c := ih ht hb
    exact hbody
  | app f a ihf iha =>
    obtain ⟨hf, ha⟩ := List.forall_mem_append.1 ht
    cases hlam : f.isLam with
    | true =>
      cases f with
      | lam b =>
        have hu := Option.some.inj h
        subst hu
        intro c hc
        rcases mem_constants_of_subst b 0 a hc with hb | hc
        · exact hf c hb
        · exact ha c hc
      | _ => cases hlam
    | false =>
      rw [contract?_app a hlam] at h
      split at h
      · next f' hf' =>
        have hu := Option.some.inj h
        subst hu
        exact List.forall_mem_append.2 ⟨ihf hf hf', ha⟩
      · obtain ⟨a', ha', rfl⟩ := Option.map_eq_some_iff.1 h
        exact List.forall_mem_append.2 ⟨hf, iha ha ha'⟩

end NormalOrder.Nameless

namespace NormalOrder.Term

/-- What is outside of a term and its binders is named by its references and by the free variables
that the binders leave free. -/
theorem mem_constants_nameless {x : String} (binders : List String) (t : Term) :
    x ∈ (t.nameless .shared binders).constants ↔
      x ∈ t.references ∨ x ∈ t.free ∧ x ∉ binders := by
  induction t generalizing binders with
  | var y =>
    by_cases hy : y ∈ binders
    · simp only [nameless, if_pos hy, Nameless.constants, references, free, List.mem_singleton,
        List.not_mem_nil, false_or, false_iff, not_and, not_not]
      rintro rfl
      exact hy
    · simp only [nameless, if_neg hy, Nameless.constants, references, free, List.mem_singleton,
        List.not_mem_nil, false_or, Naming.shared, id]
      constructor
      · rintro rfl
        exact ⟨rfl, hy⟩
      · exact And.left
  | ref y => simp [nameless, Nameless.constants, references, free, Naming.shared]
  | lam y b ih =>
    simp only [nameless, Nameless.constants, references, ih, mem_free_lam, List.mem_cons, not_or,
      and_assoc]
  | app f a ihf iha =>
    simp only [nameless, Nameless.constants, references, free, List.mem_append, ihf, iha]
    tauto

theorem mem_constants_globalForm {x : String} (t : Term) :
    x ∈ t.globalForm.constants ↔ x ∈ t.references ∨ x ∈ t.free := by
  rw [globalForm, mem_constants_nameless]
  simp only [List.not_mem_nil, not_false_eq_true, and_true]

end NormalOrder.Term
