import NormalOrder.Proofs.Nameless.Contraction
import NormalOrder.Proofs.Nameless.Operations

/-!
# Protection captures nothing and changes nothing else

A definition that is put below binders is protected from them, and has there the form that it has
alone. Place by place, the protected term is the definition, except where a variable with one of the
protected names is free. The same name may be free at one place of the definition, bound at another,
and bound around the whole: only the first is protected.
-/

namespace NormalOrder.Term

open Nameless (Place)

inductive Node
  | var (name : String)
  | ref (name : String)
  | lam (param : String)
  | app
deriving DecidableEq, Repr

def node? : Term → Place → Option Node
  | var x, [] => some (.var x)
  | ref x, [] => some (.ref x)
  | lam x _, [] => some (.lam x)
  | app _ _, [] => some .app
  | lam _ b, .body :: p => b.node? p
  | app f _, .function :: p => f.node? p
  | app _ a, .argument :: p => a.node? p
  | _, _ :: _ => none

/-- The binders that are passed on a way down, the outermost first. -/
def bindersAlong : Term → Place → List String
  | lam x b, .body :: p => x :: b.bindersAlong p
  | app f _, .function :: p => f.bindersAlong p
  | app _ a, .argument :: p => a.bindersAlong p
  | _, _ => []

/-- The variable stands at the place, and no binder of the term binds it there. -/
def FreeAt (t : Term) (p : Place) (x : String) : Prop :=
  t.node? p = some (.var x) ∧ x ∉ t.bindersAlong p

instance (t : Term) (p : Place) (x : String) : Decidable (t.FreeAt p x) :=
  inferInstanceAs (Decidable (_ ∧ _))

section Places

variable {names : List String} {t : Term} {p : Place} {x : String}

theorem freeAt_body {y : String} {b : Term} :
    (lam y b).FreeAt (.body :: p) x ↔ b.FreeAt p x ∧ x ≠ y := by
  simp only [FreeAt, node?, bindersAlong, List.mem_cons, not_or]
  exact ⟨fun ⟨hnode, hne, hbinders⟩ => ⟨⟨hnode, hbinders⟩, hne⟩,
    fun ⟨⟨hnode, hbinders⟩, hne⟩ => ⟨hnode, hne, hbinders⟩⟩

theorem mem_free_of_freeAt (h : t.FreeAt p x) : x ∈ t.free := by
  fun_induction node? t p with
  | case1 y =>
    obtain ⟨⟨⟩, -⟩ := h
    exact List.mem_singleton_self x
  | case2 y => cases h.1
  | case3 y b => cases h.1
  | case4 f a => cases h.1
  | case5 y b p ih =>
    obtain ⟨hb, hne⟩ := freeAt_body.1 h
    exact mem_free_lam.2 ⟨ih hb, hne⟩
  | case6 f a p ih => exact List.mem_append_left _ (ih h)
  | case7 f a p ih => exact List.mem_append_right _ (ih h)
  | case8 => simp [FreeAt, node?] at h

theorem exists_freeAt_of_mem_free (h : x ∈ t.free) : ∃ p, t.FreeAt p x := by
  induction t with
  | var y =>
    obtain rfl := List.mem_singleton.1 h
    exact ⟨[], rfl, List.not_mem_nil⟩
  | ref y => cases h
  | lam y b ih =>
    obtain ⟨hb, hne⟩ := mem_free_lam.1 h
    obtain ⟨p, hp⟩ := ih hb
    exact ⟨.body :: p, freeAt_body.2 ⟨hp, hne⟩⟩
  | app f a ihf iha =>
    rcases List.mem_append.1 h with hf | ha
    · obtain ⟨p, hp⟩ := ihf hf
      exact ⟨.function :: p, hp⟩
    · obtain ⟨p, hp⟩ := iha ha
      exact ⟨.argument :: p, hp⟩

/-- A free variable with one of the names becomes a reference. -/
theorem node?_protect_of_freeAt (hx : x ∈ names) (h : t.FreeAt p x) :
    (t.protect names).node? p = some (.ref x) := by
  fun_induction node? t p generalizing names with
  | case1 y =>
    obtain ⟨⟨⟩, -⟩ := h
    rw [protect, if_pos hx]
    rfl
  | case2 y => cases h.1
  | case3 y b => cases h.1
  | case4 f a => cases h.1
  | case5 y b p ih =>
    obtain ⟨hb, hne⟩ := freeAt_body.1 h
    exact ih (List.mem_filter.2 ⟨hx, decide_eq_true hne⟩) hb
  | case6 f a p ih => exact ih hx h
  | case7 f a p ih => exact ih hx h
  | case8 => simp [FreeAt, node?] at h

/-- Everything else is left as it is. -/
theorem node?_protect_of_not_freeAt (h : ∀ x ∈ names, ¬t.FreeAt p x) :
    (t.protect names).node? p = t.node? p := by
  induction t generalizing names p with
  | var y =>
    rw [protect]
    split
    · next hy =>
      cases p with
      | nil => exact absurd ⟨rfl, List.not_mem_nil⟩ (h y hy)
      | cons turn p => rfl
    · rfl
  | ref y => rfl
  | lam y b ih =>
    cases p with
    | nil => rfl
    | cons turn p =>
      cases turn with
      | body =>
        refine ih fun x hx hfree => ?_
        obtain ⟨hmem, hne⟩ := List.mem_filter.1 hx
        exact h x hmem (freeAt_body.2 ⟨hfree, of_decide_eq_true hne⟩)
      | function => rfl
      | argument => rfl
  | app f a ihf iha =>
    cases p with
    | nil => rfl
    | cons turn p =>
      cases turn with
      | body => rfl
      | function => exact ihf h
      | argument => exact iha h

end Places

/-- A definition whose free variables are protected from the binders around it has the form that it
has where it stands alone. Protection turns the occurrences of the names that are free in the
definition into references, and leaves everything else as it is. -/
theorem protect_captures_nothing (d : Term) :
    (∀ binders : List String,
      (d.protect (d.free.filter (· ∈ binders))).nameless .shared binders = d.nameless .shared []) ∧
    (∀ x, x ∈ d.free ↔ ∃ p, d.FreeAt p x) ∧
    ∀ (names : List String) (p : Place),
      (∀ x ∈ names, d.FreeAt p x → (d.protect names).node? p = some (.ref x)) ∧
      ((∀ x ∈ names, ¬d.FreeAt p x) → (d.protect names).node? p = d.node? p) := by
  refine ⟨?_, ?_, ?_⟩
  · intro binders
    rw [nameless_eq_assign]
    exact assign_protect_binders binders d
  · intro x
    exact ⟨exists_freeAt_of_mem_free, fun ⟨_, hp⟩ => mem_free_of_freeAt hp⟩
  · intro names p
    exact ⟨fun x hx hfree => node?_protect_of_freeAt hx hfree, node?_protect_of_not_freeAt⟩

/-- The name `x` is free at the front, bound behind it, and bound around the whole; there is no
binder around the whole for `y`. -/
example :
    let d := app (app (var "x") (lam "x" (app (var "x") (var "y")))) (var "y")
    d.protect (d.free.filter (· ∈ ["x", "z"])) =
      app (app (ref "x") (lam "x" (app (var "x") (var "y")))) (var "y") := by
  decide

end NormalOrder.Term
