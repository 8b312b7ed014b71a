import NormalOrder.Term.Substitution

/-!
# Substitution comes to an end

Where a binder would capture, its body is renamed first, and the substitution goes on in what that
gives, which is not a part of the abstraction. It is smaller than the abstraction nevertheless,
because renaming keeps the shape of a term. The computation is described here as a relation, which
says nothing about its end, and is then shown to come to one result for every term. Facts about
substitution are proved by induction on the computation.
-/

namespace NormalOrder.Term

inductive Shape
  | var
  | ref
  | lam (body : Shape)
  | app (function argument : Shape)
deriving DecidableEq, Repr

def Shape.size : Shape → Nat
  | var => 1
  | ref => 1
  | lam b => b.size + 1
  | app f a => f.size + a.size + 1

def shape : Term → Shape
  | var _ => .var
  | ref _ => .ref
  | lam _ b => .lam b.shape
  | app f a => .app f.shape a.shape

theorem size_shape (t : Term) : t.shape.size = t.size := by
  induction t with
  | var x => rfl
  | ref x => rfl
  | lam x b ih => simp only [shape, Shape.size, size, ih]
  | app f a ihf iha => simp only [shape, Shape.size, size, ihf, iha]

/-- How the substitution of a term for a variable is computed. -/
inductive Substitutes : Term → String → Term → Term → Prop
  | replaced (x : String) (s : Term) : Substitutes (var x) x s s
  | other {x y : String} (s : Term) (hy : y ≠ x) : Substitutes (var y) x s (var y)
  | reference (x : String) (s : Term) (y : String) : Substitutes (ref y) x s (ref y)
  | application {x : String} {s f f' a a' : Term} (hf : Substitutes f x s f')
    (ha : Substitutes a x s a') : Substitutes (app f a) x s (app f' a')
  /-- The abstraction binds the variable. -/
  | shadowed (x : String) (s b : Term) : Substitutes (lam x b) x s (lam x b)
  /-- There is nothing to substitute for. -/
  | absent {x p : String} {b : Term} (s : Term) (hp : p ≠ x) (hx : x ∉ b.free) :
    Substitutes (lam p b) x s (lam p b)
  /-- The abstraction would capture, so its body is renamed first. -/
  | renamed {x p q : String} {s b b' c : Term} (hp : p ≠ x) (hx : x ∈ b.free) (hs : p ∈ s.free)
    (hq : q = freshName p (b.free ++ s.free ++ [x])) (hb : Substitutes b p (var q) b')
    (hc : Substitutes b' x s c) : Substitutes (lam p b) x s (lam q c)
  | inside {x p : String} {s b c : Term} (hp : p ≠ x) (hx : x ∈ b.free) (hs : p ∉ s.free)
    (hc : Substitutes b x s c) : Substitutes (lam p b) x s (lam p c)

namespace Substitutes

variable {t s u : Term} {x : String}

/-- A variable in place of a variable keeps the shape. This is so without regard to how the
computation goes on: a body that is renamed first has its shape then, and keeps it in the
substitution that follows. -/
theorem shape_eq (h : Substitutes t x s u) : ∀ y, s = var y → u.shape = t.shape := by
  induction h with
  | replaced x s =>
    rintro y rfl
    rfl
  | other s hy => exact fun _ _ => rfl
  | reference x s y => exact fun _ _ => rfl
  | application _ _ ihf iha =>
    intro y hs
    simp only [shape, ihf y hs, iha y hs]
  | shadowed x s b => exact fun _ _ => rfl
  | absent s hp hx => exact fun _ _ => rfl
  | @renamed x p q s b b' c _ _ _ _ _ _ ihb ihc =>
    intro y hs
    have hrenamed : b'.shape = b.shape := ihb q rfl
    simp only [shape, ihc y hs, hrenamed]
  | inside _ _ _ _ ihc =>
    intro y hs
    simp only [shape, ihc y hs]

/-- What a renamed body goes on with is smaller than the abstraction. -/
theorem size_lt_lam {p q : String} {b b' : Term} (h : Substitutes b p (var q) b') :
    b'.size < (lam p b).size := by
  have hsize : b'.size = b.size := by
    rw [← size_shape, h.shape_eq q rfl, size_shape]
  rw [hsize]
  exact Nat.lt_succ_self b.size

/-- The computation comes to the substituted term and to nothing else. -/
theorem eq_substitute (h : Substitutes t x s u) : u = t.substitute x s := by
  induction h with
  | replaced x s => rw [substitute_var, if_pos rfl]
  | other s hy => rw [substitute_var, if_neg hy]
  | reference x s y => rw [substitute_ref]
  | application _ _ ihf iha => rw [substitute_app, ihf, iha]
  | shadowed x s b => rw [substitute_lam, if_pos rfl]
  | absent s hp hx => rw [substitute_lam, if_neg hp, if_pos hx]
  | renamed hp hx hs hq _ _ ihb ihc =>
    rw [substitute_lam, if_neg hp, if_neg (not_not_intro hx), if_pos hs, ihc, ihb, hq]
  | inside hp hx hs _ ihc =>
    rw [substitute_lam, if_neg hp, if_neg (not_not_intro hx), if_neg hs, ihc]

end Substitutes

/-- The computation comes to an end for every term. The induction is on the size, which all terms
that it goes on with have less of. -/
theorem exists_substitutes (t : Term) (x : String) (s : Term) : ∃ u, Substitutes t x s u := by
  induction hn : t.size using Nat.strongRecOn generalizing t x s with
  | ind n ih =>
    cases t with
    | var y =>
      by_cases hy : y = x
      · exact ⟨s, hy ▸ .replaced y s⟩
      · exact ⟨var y, .other s hy⟩
    | ref y => exact ⟨ref y, .reference x s y⟩
    | app f a =>
      simp only [size] at hn
      obtain ⟨f', hf⟩ := ih f.size (by omega) f x s rfl
      obtain ⟨a', ha⟩ := ih a.size (by omega) a x s rfl
      exact ⟨app f' a', .application hf ha⟩
    | lam p b =>
      have hbody : b.size < n := by
        rw [← hn]
        exact Nat.lt_succ_self b.size
      by_cases hp : p = x
      · exact ⟨lam p b, hp ▸ .shadowed p s b⟩
      · by_cases hx : x ∈ b.free
        · by_cases hs : p ∈ s.free
          · obtain ⟨b', hb⟩ := ih b.size hbody b p (var (freshName p (b.free ++ s.free ++ [x]))) rfl
            obtain ⟨c, hc⟩ := ih b'.size (hn ▸ hb.size_lt_lam) b' x s rfl
            exact ⟨_, .renamed hp hx hs rfl hb hc⟩
          · obtain ⟨c, hc⟩ := ih b.size hbody b x s rfl
            exact ⟨lam p c, .inside hp hx hs hc⟩
        · exact ⟨lam p b, .absent s hp hx⟩

theorem substitutes_substitute (t : Term) (x : String) (s : Term) :
    Substitutes t x s (t.substitute x s) := by
  obtain ⟨u, hu⟩ := exists_substitutes t x s
  exact hu.eq_substitute ▸ hu

/-- Substituting a variable for a variable keeps the kinds of all nodes and their number. So a body
that was renamed is smaller than the abstraction it comes from, and every substitution is computed
in finitely many steps, with one result. -/
theorem substitution_ends :
    (∀ (t : Term) (x y : String), (t.substitute x (var y)).shape = t.shape ∧
      (t.substitute x (var y)).size = t.size) ∧
    (∀ (p q : String) (b b' : Term), Substitutes b p (var q) b' → b'.size < (lam p b).size) ∧
    ∀ (t : Term) (x : String) (s u : Term), Substitutes t x s u ↔ u = t.substitute x s := by
  refine ⟨?_, fun p q b b' h => h.size_lt_lam, ?_⟩
  · intro t x y
    exact ⟨(substitutes_substitute t x (var y)).shape_eq y rfl, size_substitute_var t x y⟩
  · intro t x s u
    constructor
    · exact Substitutes.eq_substitute
    · rintro rfl
      exact substitutes_substitute t x s

end NormalOrder.Term
