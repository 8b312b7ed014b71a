import NormalOrder.Proofs.Nameless.Constants
import NormalOrder.Term.Alpha

/-!
# Equality up to names is equality of forms

Terms that are equal up to the names of bound variables are those with the same form, where free
variables and references are kept apart. They are compared through stacks of partners, which hold
the binders around the two terms as pairs, without saying how deep they stand; a comparison leaves
the stacks as it finds them. For a closed term without references nothing is left to keep apart, and
the form is the same wherever it stands: such a term is found by its form below any binders.
-/

namespace NormalOrder

variable {κ ι : Type}

def Naming.apart : Naming (String ⊕ String) := ⟨.inl, .inr⟩

namespace Nameless

def map (g : κ → ι) : Nameless κ → Nameless ι
  | bound i => bound i
  | const c => const (g c)
  | lam b => lam (b.map g)
  | app f a => app (f.map g) (a.map g)

theorem lift_injective (k : Nat) : Function.Injective fun t : Nameless κ => t.lift k := by
  intro t u h
  have hsubst := congrArg (fun v => v.subst k (bound 0)) h
  simpa only [subst_lift_self] using hsubst

theorem lift_zero_ne_bound_zero (t : Nameless κ) : t.lift 0 ≠ bound 0 := by
  cases t with
  | bound i => simp [lift]
  | const c => simp [lift]
  | lam b => simp [lift]
  | app f a => simp [lift]

theorem scoped_of_lift {t : Nameless κ} {j k : Nat} (hj : j ≤ k) (h : (t.lift j).Scoped (k + 1)) :
    t.Scoped k := by
  induction t generalizing j k with
  | bound i =>
    by_cases hi : i < j
    · exact Nat.lt_of_lt_of_le hi hj
    · simp only [lift, if_neg hi, Scoped] at h
      exact Nat.lt_of_succ_lt_succ h
  | const c => exact trivial
  | lam b ih => exact ih (Nat.succ_le_succ hj) h
  | app f a ihf iha => exact ⟨ihf hj h.1, iha hj h.2⟩

end Nameless

namespace Term

section Stacks

variable {m m' : Matching} {binders : List (String × String)}

theorem Partners.stack_push (p : Partners) (x partner y : String) :
    (p.push x partner).stack y = if y = x then partner :: p.stack x else p.stack y := by
  unfold push
  rw [stack, Roster.find?_insert]
  split <;> rfl

theorem Partners.stack_pop (p : Partners) (x y : String) :
    (p.pop x).stack y = if y = x then (p.stack x).tail else p.stack y := by
  unfold pop
  rw [stack, Roster.find?_insert]
  split <;> rfl

namespace Matching

/-- The partners of every name are the same. A name that has none may be entered or not. -/
def SameStacks (m m' : Matching) : Prop :=
  (∀ x, m.left.stack x = m'.left.stack x) ∧ ∀ y, m.right.stack y = m'.right.stack y

theorem SameStacks.leave {x y : String} (h : m'.SameStacks (m.enter x y)) :
    (m'.leave x y).SameStacks m := by
  obtain ⟨hleft, hright⟩ := h
  simp only [enter, Partners.stack_push] at hleft hright
  constructor
  · intro z
    simp only [Matching.leave, Partners.stack_pop, hleft]
    split <;> simp_all
  · intro z
    simp only [Matching.leave, Partners.stack_pop, hright]
    split <;> simp_all

end Matching

/-- Comparing two terms leaves the stacks as it has found them, whatever the answer. -/
theorem sameStacks_alphaCompare (t u : Term) (m : Matching) :
    (t.alphaCompare u m).2.SameStacks m := by
  have hsame : m.SameStacks m := ⟨fun _ => rfl, fun _ => rfl⟩
  induction t generalizing u m with
  | var x => cases u <;> exact hsame
  | ref x => cases u <;> exact hsame
  | lam x b ih =>
    cases u with
    | lam y c => exact (ih c (m.enter x y) ⟨fun _ => rfl, fun _ => rfl⟩).leave
    | _ => exact hsame
  | app f a ihf iha =>
    cases u with
    | app g c =>
      have hf := ihf g m hsame
      rw [alphaCompare]
      split
      · have ha := iha c (f.alphaCompare g m).2 ⟨fun _ => rfl, fun _ => rfl⟩
        exact ⟨fun z => (ha.1 z).trans (hf.1 z), fun z => (ha.2 z).trans (hf.2 z)⟩
      · exact hf
    | _ => exact hsame

def partnersAmong (binders : List (String × String)) (x : String) : List String :=
  (binders.filter (·.1 = x)).map Prod.snd

theorem partnersAmong_cons (p q : String) (binders : List (String × String)) (x : String) :
    partnersAmong ((p, q) :: binders) x =
      if x = p then q :: partnersAmong binders x else partnersAmong binders x := by
  by_cases h : x = p
  · subst h
    simp [partnersAmong]
  · simp [partnersAmong, h, Ne.symm h]

/-- The stacks are those of the given pairs of binders, the innermost first. -/
def Matching.Holds (m : Matching) (binders : List (String × String)) : Prop :=
  (∀ x, m.left.stack x = partnersAmong binders x) ∧
    ∀ y, m.right.stack y = partnersAmong (binders.map Prod.swap) y

theorem Matching.Holds.enter (h : m.Holds binders) (x y : String) :
    (m.enter x y).Holds ((x, y) :: binders) := by
  constructor
  · intro z
    rw [Matching.enter, Partners.stack_push, partnersAmong_cons, h.1, h.1]
    split <;> simp_all
  · intro z
    rw [Matching.enter, Partners.stack_push, List.map_cons, Prod.swap_prod_mk, partnersAmong_cons,
      h.2, h.2]
    split <;> simp_all

theorem Matching.SameStacks.holds (hsame : m'.SameStacks m) (h : m.Holds binders) :
    m'.Holds binders :=
  ⟨fun x => (hsame.1 x).trans (h.1 x), fun y => (hsame.2 y).trans (h.2 y)⟩

end Stacks

section Alpha

/-- Two variables agree exactly if they have the same form below their binders. The pair that is the
innermost with either of the names decides: if it has both, the stacks have each on top of the
other's, and otherwise one of them has not. -/
theorem agree_iff {m : Matching} {binders : List (String × String)} (h : m.Holds binders)
    (x y : String) :
    m.agree x y = true ↔
      Assignment.ofBinders .apart (binders.map Prod.fst) x =
        Assignment.ofBinders .apart (binders.map Prod.snd) y := by
  rw [Matching.agree, h.1, h.2]
  clear h
  induction binders with
  | nil => simp [partnersAmong, Assignment.ofBinders, Naming.apart]
  | cons p binders ih =>
    obtain ⟨p, q⟩ := p
    rw [List.map_cons, List.map_cons, List.map_cons, Prod.swap_prod_mk, partnersAmong_cons,
      partnersAmong_cons, Assignment.ofBinders_cons, Assignment.ofBinders_cons]
    by_cases hx : x = p
    · subst hx
      rw [Assignment.below_self, if_pos rfl]
      by_cases hy : y = q
      · subst hy
        simp [Assignment.below_self]
      · rw [Assignment.below_of_ne _ hy, if_neg hy]
        have hform := (Nameless.lift_zero_ne_bound_zero
          (Assignment.ofBinders .apart (binders.map Prod.snd) y)).symm
        cases partnersAmong (binders.map Prod.swap) y with
        | nil => simp [hform]
        | cons partner _ => simp [hform, Ne.symm hy]
    · rw [Assignment.below_of_ne _ hx, if_neg hx]
      by_cases hy : y = q
      · subst hy
        have hform := Nameless.lift_zero_ne_bound_zero
          (Assignment.ofBinders .apart (binders.map Prod.fst) x)
        rw [Assignment.below_self, if_pos rfl]
        cases partnersAmong binders x with
        | nil => simp [hform]
        | cons partner _ => simp [hform, Ne.symm hx]
      · rw [Assignment.below_of_ne _ hy, if_neg hy, ih]
        exact (Nameless.lift_injective 0).eq_iff.symm

/-- Terms are equal up to the names of bound variables exactly if they have the same form. -/
theorem alphaCompare_iff {m : Matching} {binders : List (String × String)} (h : m.Holds binders)
    (t u : Term) :
    (t.alphaCompare u m).1 = true ↔
      t.nameless .apart (binders.map Prod.fst) = u.nameless .apart (binders.map Prod.snd) := by
  induction t generalizing u m binders with
  | var x =>
    cases u with
    | var y => exact agree_iff h x y
    | _ =>
      simp only [alphaCompare, nameless]
      split <;> simp [Naming.apart]
  | ref x =>
    cases u with
    | ref y => simp [alphaCompare, nameless, Naming.apart]
    | var y =>
      simp only [alphaCompare, nameless]
      split <;> simp [Naming.apart]
    | _ => simp [alphaCompare, nameless]
  | lam x b ih =>
    cases u with
    | lam y c =>
      simp only [alphaCompare, nameless, Nameless.lam.injEq]
      exact ih (h.enter x y) c
    | var y =>
      simp only [alphaCompare, nameless]
      split <;> simp
    | _ => simp [alphaCompare, nameless]
  | app f a ihf iha =>
    cases u with
    | app g c =>
      have hf := ihf h g
      have ha := iha ((sameStacks_alphaCompare f g m).holds h) c
      simp only [alphaCompare, nameless, Nameless.app.injEq, ← hf, ← ha]
      split <;> simp_all
    | var y =>
      simp only [alphaCompare, nameless]
      split <;> simp
    | _ => simp [alphaCompare, nameless]

theorem alphaEq_iff (t u : Term) :
    t.alphaEq u = true ↔ t.nameless .apart [] = u.nameless .apart [] := by
  have hempty : Matching.Holds {} [] := ⟨fun _ => rfl, fun _ => rfl⟩
  exact alphaCompare_iff hempty t u

/-- Equality up to the names of bound variables is equality of forms, and so it is an equivalence. A
comparison gives all names their partners back, whatever it has met and whatever it answers. -/
theorem alphaEq_decides_form :
    (∀ t u : Term, t.alphaEq u = true ↔ t.nameless .apart [] = u.nameless .apart []) ∧
      Equivalence (fun t u : Term => t.alphaEq u = true) ∧
      ∀ (t u : Term) (m : Matching),
        (∀ x, (t.alphaCompare u m).2.left.stack x = m.left.stack x) ∧
          ∀ y, (t.alphaCompare u m).2.right.stack y = m.right.stack y := by
  refine ⟨alphaEq_iff, ⟨?_, ?_, ?_⟩, sameStacks_alphaCompare⟩
  · intro t
    exact (alphaEq_iff t t).2 rfl
  · intro t u h
    exact (alphaEq_iff u t).2 ((alphaEq_iff t u).1 h).symm
  · intro t u v htu huv
    exact (alphaEq_iff t v).2 (((alphaEq_iff t u).1 htu).trans ((alphaEq_iff u v).1 huv))

/-- The inner binders have the same name, but the variable on the right is bound by the outer
one. -/
example : (lam "x" (lam "x" (var "x"))).alphaEq (lam "y" (lam "x" (var "y"))) = false := by decide

end Alpha

section Closed

theorem map_nameless (g : κ → ι) (ν : Naming κ) (binders : List String) (t : Term) :
    (t.nameless ν binders).map g = t.nameless ⟨g ∘ ν.free, g ∘ ν.reference⟩ binders := by
  induction t generalizing binders with
  | var x =>
    simp only [nameless]
    split <;> rfl
  | ref x => rfl
  | lam x b ih => simp only [nameless, Nameless.map, ih]
  | app f a ihf iha => simp only [nameless, Nameless.map, ihf, iha]

/-- Without references, how they are named does not matter. -/
theorem nameless_apart_of_references_eq_nil {t : Term} (h : t.references = [])
    (binders : List String) :
    t.nameless .apart binders = (t.nameless .shared binders).map .inl := by
  induction t generalizing binders with
  | var x =>
    simp only [nameless]
    split <;> rfl
  | ref x => cases h
  | lam x b ih => simp only [nameless, Nameless.map, ih h]
  | app f a ihf iha =>
    obtain ⟨hf, ha⟩ := List.append_eq_nil_iff.1 h
    simp only [nameless, Nameless.map, ihf hf, iha ha]

/-- What is assigned to a free variable is a part of the form. -/
theorem scoped_of_assign {ν : Naming κ} {ρ : Assignment κ} {t : Term} {k : Nat}
    (h : (t.assign ν ρ).Scoped k) : ∀ x ∈ t.free, (ρ x).Scoped k := by
  induction t generalizing ρ k with
  | var y =>
    intro x hx
    obtain rfl := List.mem_singleton.1 hx
    exact h
  | ref y => simp [free]
  | lam y b ih =>
    intro x hx
    obtain ⟨hb, hne⟩ := mem_free_lam.1 hx
    have hscoped := ih h x hb
    rw [Assignment.below_of_ne _ hne] at hscoped
    exact Nameless.scoped_of_lift (Nat.zero_le k) hscoped
  | app f a ihf iha => exact List.forall_mem_append.2 ⟨ihf h.1, iha h.2⟩

/-- A closed term has the same form below any binders. -/
theorem nameless_of_free_eq_nil {t : Term} (h : t.free = []) (ν : Naming κ)
    (binders : List String) : t.nameless ν binders = t.nameless ν [] := by
  rw [nameless_eq_assign, nameless_eq_assign]
  apply assign_congr
  simp [h]

/-- A term whose form has no constants and refers to none of the binders around it is closed. -/
theorem closed_of_nameless {binders : List String} {t : Term}
    (hscoped : (t.nameless .shared binders).Scoped 0)
    (hconstants : (t.nameless .shared binders).constants = []) :
    t.free = [] ∧ t.references = [] := by
  have hnone : ∀ x, ¬(x ∈ t.references ∨ x ∈ t.free ∧ x ∉ binders) := by
    intro x hx
    rw [← mem_constants_nameless, hconstants] at hx
    cases hx
  refine ⟨List.eq_nil_iff_forall_not_mem.2 ?_, List.eq_nil_iff_forall_not_mem.2 ?_⟩
  · intro x hx
    have hbound : x ∈ binders := by
      by_contra hnot
      exact hnone x (Or.inr ⟨hx, hnot⟩)
    rw [nameless_eq_assign] at hscoped
    have hindex := scoped_of_assign hscoped x hx
    rw [Assignment.ofBinders, if_pos hbound] at hindex
    exact Nat.not_lt_zero _ hindex
  · exact fun x hx => hnone x (Or.inl hx)

theorem constants_eq_nil_of_closed {d : Term} (hfree : d.free = []) (hrefs : d.references = []) :
    d.globalForm.constants = [] := by
  rw [List.eq_nil_iff_forall_not_mem]
  intro x hx
  rcases (mem_constants_globalForm d).1 hx with h | h
  · rw [hrefs] at h
    cases h
  · rw [hfree] at h
    cases h

/-- Below any binders, a term is equal to a closed one without references, up to the names of bound
variables, exactly if it has its form. -/
theorem alphaEq_closed_iff {d : Term} (hfree : d.free = []) (hrefs : d.references = []) (t : Term)
    (binders : List String) :
    t.alphaEq d = true ↔ t.nameless .shared binders = d.globalForm := by
  have hconstants := constants_eq_nil_of_closed hfree hrefs
  rw [alphaEq_iff]
  constructor
  · intro h
    have hform : t.globalForm = d.globalForm := by
      have hmap := congrArg (Nameless.map (Sum.elim id id)) h
      rwa [map_nameless, map_nameless] at hmap
    have hnone : t.globalForm.constants = [] := by rw [hform, hconstants]
    have hclosed := (closed_of_nameless (t.scoped_nameless .shared []) hnone).1
    rw [nameless_of_free_eq_nil hclosed]
    exact hform
  · intro h
    have hscoped : (t.nameless .shared binders).Scoped 0 := by
      rw [h]
      exact d.scoped_nameless .shared []
    have hnone : (t.nameless .shared binders).constants = [] := by rw [h, hconstants]
    obtain ⟨htfree, htrefs⟩ := closed_of_nameless hscoped hnone
    rw [nameless_apart_of_references_eq_nil htrefs, nameless_apart_of_references_eq_nil hrefs,
      ← nameless_of_free_eq_nil htfree .shared binders, h]
    rfl

end Closed

end Term

end NormalOrder
