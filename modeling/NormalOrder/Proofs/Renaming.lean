import NormalOrder.Proofs.Nameless.Alpha
import NormalOrder.Proofs.Nameless.Operations
import NormalOrder.Term.Substitution

/-!
# Renaming is substitution that has nothing to avoid

Binders are written under new names by renaming, which stops at the binders of the old name and
looks at no other. Reduction substitutes, and looks for captures below every binder. For a name that
a term does not use, renaming is one of the ways in which substitution is computed, so the two come
to the same term, binders included, and what is known of the form of a substituted term holds for a
renamed one.
-/

namespace NormalOrder.Term

variable {κ : Type} {old new : String} {t : Term}

section Agreement

theorem rename_of_not_free (h : old ∉ t.free) : t.rename old new = t := by
  induction t with
  | var x =>
    have hx : x ≠ old := fun he => h (List.mem_singleton.2 he.symm)
    rw [rename, if_neg hx]
  | ref x => rfl
  | lam x b ih =>
    by_cases hx : x = old
    · rw [rename, if_pos hx]
    · have hb : old ∉ b.free := fun hb => h (mem_free_lam.2 ⟨hb, Ne.symm hx⟩)
      rw [rename, if_neg hx, ih hb]
  | app f a ihf iha =>
    have hf : old ∉ f.free := fun hf => h (List.mem_append_left _ hf)
    have ha : old ∉ a.free := fun ha => h (List.mem_append_right _ ha)
    rw [rename, ihf hf, iha ha]

/-- Renaming to a name that a term does not use is a computation of the substitution. No binder has
the new name, so none is ever renamed in it. -/
theorem substitutes_rename (h : new ∉ t.names) :
    Substitutes t old (var new) (t.rename old new) := by
  induction t with
  | var x =>
    by_cases hx : x = old
    · rw [rename, if_pos hx, hx]
      exact .replaced old (var new)
    · rw [rename, if_neg hx]
      exact .other (var new) hx
  | ref x => exact .reference old (var new) x
  | lam x b ih =>
    simp only [names, List.mem_cons, not_or] at h
    obtain ⟨hx, hb⟩ := h
    by_cases hold : x = old
    · rw [rename, if_pos hold, hold]
      exact .shadowed old (var new) b
    · rw [rename, if_neg hold]
      by_cases hfree : old ∈ b.free
      · have hcapture : x ∉ (var new).free := fun he => hx (List.mem_singleton.1 he).symm
        exact .inside hold hfree hcapture (ih hb)
      · -- Substitution stops here, while renaming goes on and finds nothing.
        rw [rename_of_not_free hfree]
        exact .absent (var new) hold hfree
  | app f a ihf iha =>
    simp only [names, List.mem_append, not_or] at h
    exact .application (ihf h.1) (iha h.2)

end Agreement

section Names

theorem references_rename (old new : String) (t : Term) :
    (t.rename old new).references = t.references := by
  induction t with
  | var x =>
    rw [rename]
    split <;> rfl
  | ref x => rfl
  | lam x b ih =>
    rw [rename]
    split
    · rfl
    · exact ih
  | app f a ihf iha => simp only [rename, references, ihf, iha]

theorem names_rename (old new : String) (t : Term) :
    ∀ y ∈ (t.rename old new).names, y ∈ t.names ∨ y = new := by
  induction t with
  | var z =>
    rw [rename]
    split <;> simp [names]
  | ref z => simp [rename, names]
  | lam z c ih =>
    intro y hy
    rw [rename] at hy
    split at hy
    · exact Or.inl hy
    · rcases List.mem_cons.1 hy with rfl | hc
      · exact Or.inl List.mem_cons_self
      · exact (ih y hc).imp_left (List.mem_cons_of_mem _)
  | app f a ihf iha =>
    intro y hy
    rcases List.mem_append.1 hy with h | h
    · exact (ihf y h).imp_left (List.mem_append_left _)
    · exact (iha y h).imp_left (List.mem_append_right _)

end Names

section Form

/-- Renaming to a name that a term does not use assigns the new name's term to the old one. -/
theorem assign_rename (ν : Naming κ) (ρ : Assignment κ) (h : new ∉ t.names) :
    (t.rename old new).assign ν ρ = t.assign ν (Function.update ρ old (ρ new)) :=
  (substitutes_rename h).assign_eq ν ρ

/-- A binder and its variable can be given a name that the body does not use. -/
theorem assign_rename_below (ν : Naming κ) (ρ : Assignment κ) (h : new ∉ t.names) :
    (t.rename old new).assign ν (ρ.below new) = t.assign ν (ρ.below old) := by
  have hfree : new ∉ t.free := fun hf => h (free_subset_names t new hf)
  rw [assign_rename ν _ h, Assignment.below_self, assign_update_var ν ρ hfree]

theorem alphaEq_lam_rename (h : new ∉ t.names) :
    (lam old t).alphaEq (lam new (t.rename old new)) = true := by
  rw [alphaEq_iff]
  simp only [nameless, nameless_eq_assign, Assignment.ofBinders_cons]
  rw [assign_rename_below .apart _ h]

end Form

/-- Renaming to a name that does not occur in a term gives what capture-avoiding substitution of the
new variable for the old one gives. An abstraction of the old name is equal to one of the new name
over the renamed body, up to the names of bound variables. -/
theorem rename_agrees_with_substitute (t : Term) (old new : String) (h : new ∉ t.names) :
    t.rename old new = t.substitute old (var new) ∧
      (lam old t).alphaEq (lam new (t.rename old new)) = true :=
  ⟨(substitutes_rename h).eq_substitute, alphaEq_lam_rename h⟩

/-- The name `y` is free at the front, bound behind it, and the name of a reference too. -/
theorem rename_agrees_with_substitute_shadowed :
    let t := lam "z" (app (app (var "y") (lam "y" (app (var "y") (ref "y")))) (var "z"))
    "y1" ∉ t.names ∧
      t.rename "y" "y1" =
        lam "z" (app (app (var "y1") (lam "y" (app (var "y") (ref "y")))) (var "z")) ∧
      t.rename "y" "y1" = t.substitute "y" (var "y1") ∧
      (lam "y" t).alphaEq (lam "y1" (t.rename "y" "y1")) = true := by
  intro t
  have hnew : "y1" ∉ t.names := by decide
  exact ⟨hnew, by decide, rename_agrees_with_substitute t "y" "y1" hnew⟩

/-- Under a binder of the new name the two part: renaming is captured, and substitution renames the
binder. -/
example :
    let t := lam "y" (app (var "x") (var "y"))
    t.rename "x" "y" = lam "y" (app (var "y") (var "y")) ∧
      t.substitute "x" (var "y") = lam "y1" (app (var "y") (var "y1")) := by
  decide +kernel

end NormalOrder.Term
