import NormalOrder.Proofs.Prelude.Bindings

/-!
# Numerals and truth values by reduction

What matters of a numeral is what comes of it when it is given a function and an argument, so a term
stands for a number if it then yields that many applications. Each function of the prelude takes
terms that stand for numbers to one that stands for the result, whatever shape they have; the
arguments need not be reduced before.
-/

namespace NormalOrder.Prelude

open Nameless Relation

/-- Applied to any function and argument, the term yields `n` applications of the function. -/
def Represents (t : Nameless String) (n : Nat) : Prop :=
  ∀ f x, Yields (t.applyAll [f, x]) ((app f)^[n] x)

theorem Represents.of_yields {t u : Nameless String} {n : Nat} (hu : Represents u n)
    (h : Yields t u) : Represents t n :=
  fun f x => (reduces_applyAll h [f, x]).trans (hu f x)

def truthName (b : Bool) : String :=
  if b then "true" else "false"

def truth (b : Bool) : Nameless String :=
  .const (truthName b)

/-- A truth value chooses between two terms. -/
theorem yields_choice (b : Bool) (t e : Nameless String) :
    Yields ((truth b).applyAll [t, e]) (if b then t else e) := by
  cases b with
  | true =>
    have h := yields_body "true" [t, e] rfl rfl
    exact h
  | false =>
    have h := yields_body "false" [t, e] rfl rfl
    exact h

theorem yields_and {a b : Nameless String} {p q : Bool} (ha : Yields a (truth p))
    (hb : Yields b (truth q)) :
    Yields (.applyAll (.const "and") [a, b]) (truth (p && q)) := by
  have hbody := yields_body "and" [a, b] rfl rfl
  have hchoice := (reduces_applyAll ha [b, truth false]).trans (yields_choice p b (truth false))
  refine hbody.trans (hchoice.trans ?_)
  cases p with
  | true => exact hb
  | false => exact .refl

theorem yields_if {a : Nameless String} {b : Bool} (h : Yields a (truth b))
    (t e : Nameless String) :
    Yields (.applyAll (.const "if") [a, t, e]) (if b then t else e) := by
  have hbody := yields_body "if" [a, t, e] rfl rfl
  exact hbody.trans ((reduces_applyAll h [t, e]).trans (yields_choice b t e))

section Arithmetic

variable {m n : Nat} {s t : Nameless String}

theorem represents_one : Represents (.const "one") 1 := by
  intro f x
  have h := yields_body "one" [f, x] rfl rfl
  exact h

theorem Represents.succ (h : Represents t n) :
    Represents (.applyAll (.const "succ") [t]) (n + 1) := by
  intro f x
  have hbody := yields_body "succ" [t, f, x] rfl rfl
  rw [Function.iterate_succ_apply']
  exact hbody.trans (reduces_argument f (h f x))

theorem Represents.plus (hs : Represents s m) (ht : Represents t n) :
    Represents (.applyAll (.const "plus") [s, t]) (m + n) := by
  intro f x
  have hbody := yields_body "plus" [s, t, f, x] rfl rfl
  have hright : Yields (s.applyAll [f, t.applyAll [f, x]]) (s.applyAll [f, (app f)^[n] x]) :=
    reduces_argument (app s f) (ht f x)
  rw [Function.iterate_add_apply]
  exact hbody.trans (hright.trans (hs f _))

theorem Represents.mult (hs : Represents s m) (ht : Represents t n) :
    Represents (.applyAll (.const "mult") [s, t]) (m * n) := by
  intro f x
  have hbody := reduces_function x (yields_body "mult" [s, t, f] rfl rfl)
  exact hbody.trans ((hs (app t f) x).trans (reduces_iterate (ht f) m x))

/-- A numeral that is applied again and again raises the number of applications to a power. -/
theorem Represents.iterate (hs : Represents s m) (n : Nat) (f x : Nameless String) :
    Yields (app ((app s)^[n] f) x) ((app f)^[m ^ n] x) := by
  induction n generalizing x with
  | zero => exact .refl
  | succ n ih =>
    rw [Function.iterate_succ_apply', Nat.pow_succ']
    exact (hs ((app s)^[n] f) x).trans (reduces_iterate ih m x)

theorem Represents.pow (hs : Represents s m) (ht : Represents t n) :
    Represents (.applyAll (.const "pow") [s, t]) (m ^ n) := by
  intro f x
  have hbody := reduces_applyAll (yields_body "pow" [s, t] rfl rfl) [f, x]
  exact hbody.trans ((reduces_function x (ht s f)).trans (hs.iterate n f x))

end Arithmetic

section Predecessor

variable {f g k x : Nameless String}

/-- `g` hands to its second argument what the first one makes of `f`, and `k` is constantly `x`. So
a chain of `g` behind `k` keeps all its applications of `f` when it is given `f` itself. -/
theorem yields_chain (hg : ∀ u h, Yields (g.applyAll [u, h]) (app h (app u f)))
    (hk : ∀ u, Yields (k.applyAll [u]) x) (n : Nat) :
    Yields (app ((app g)^[n] k) f) ((app f)^[n] x) := by
  induction n with
  | zero => exact hk f
  | succ n ih =>
    rw [Function.iterate_succ_apply', Function.iterate_succ_apply']
    exact (hg _ f).trans (reduces_argument f ih)

/-- Given the identity instead, it loses one. -/
theorem yields_chain_identity (hg : ∀ u h, Yields (g.applyAll [u, h]) (app h (app u f)))
    (hk : ∀ u, Yields (k.applyAll [u]) x) {i : Nameless String}
    (hi : ∀ u, Yields (i.applyAll [u]) u) (n : Nat) :
    Yields (app ((app g)^[n] k) i) ((app f)^[n - 1] x) := by
  cases n with
  | zero => exact hk i
  | succ n =>
    rw [Function.iterate_succ_apply', Nat.add_sub_cancel]
    exact (hg _ i).trans ((hi _).trans (yields_chain hg hk n))

theorem Represents.pred {n : Nat} {t : Nameless String} (ht : Represents t n) :
    Represents (.applyAll (.const "pred") [t]) (n - 1) := by
  intro f x
  have hbody := yields_body "pred" [t, f, x] rfl rfl
  refine hbody.trans ((reduces_function _ (ht _ _)).trans (yields_chain_identity ?_ ?_ ?_ n))
  · exact fun u h => Term.reduces_lams .shared _ _ rfl
  · exact fun u => Term.reduces_lams .shared _ _ rfl
  · exact fun u => Term.reduces_lams .shared _ _ rfl

end Predecessor

section Comparison

variable {m n : Nat} {s t : Nameless String}

theorem Represents.sub (hs : Represents s m) (ht : Represents t n) :
    Represents (.applyAll (.const "sub") [s, t]) (m - n) := by
  have hbody := yields_body "sub" [s, t] rfl rfl
  refine Represents.of_yields ?_ (hbody.trans (ht (.const "pred") s))
  clear hbody ht
  induction n with
  | zero => exact hs
  | succ n ih =>
    rw [Function.iterate_succ_apply', Nat.sub_succ]
    exact ih.pred

theorem Represents.iszero (h : Represents t n) :
    Yields (.applyAll (.const "iszero") [t]) (truth (n = 0)) := by
  have hbody := yields_body "iszero" [t] rfl rfl
  refine hbody.trans ((h _ _).trans ?_)
  cases n with
  | zero => exact .refl
  | succ n =>
    rw [Function.iterate_succ_apply']
    change Yields (.applyAll _ [_]) _
    exact Term.reduces_lams .shared _ _ rfl

theorem Represents.leq (hs : Represents s m) (ht : Represents t n) :
    Yields (.applyAll (.const "leq") [s, t]) (truth (m ≤ n)) := by
  have hbody := yields_body "leq" [s, t] rfl rfl
  rw [decide_eq_decide.2 (Nat.sub_eq_zero_iff_le (n := m) (m := n)).symm]
  exact hbody.trans (hs.sub ht).iszero

theorem Represents.eq (hs : Represents s m) (ht : Represents t n) :
    Yields (.applyAll (.const "eq") [s, t]) (truth (m = n)) := by
  have hbody := yields_body "eq" [s, t] rfl rfl
  rw [decide_eq_decide.2 Nat.le_antisymm_iff, Bool.decide_and]
  exact hbody.trans (yields_and (hs.leq ht) (ht.leq hs))

end Comparison

end NormalOrder.Prelude
