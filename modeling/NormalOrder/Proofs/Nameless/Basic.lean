/-!
# Nameless terms

A bound variable is the number of abstractions between it and its own; everything else that has a
name is a constant, which no abstraction captures. Terms that differ only in the names of bound
variables are the same nameless term.

Substitution is for the variable of one of the abstractions around a term, which is taken away by
it.
-/

namespace NormalOrder

inductive Nameless (κ : Type)
  | bound (index : Nat)
  | const (name : κ)
  | lam (body : Nameless κ)
  | app (function argument : Nameless κ)
deriving DecidableEq, Repr

namespace Nameless

variable {κ : Type}

/-- The same term below one more abstraction, with `depth` abstractions between it and the new
one. -/
def lift (t : Nameless κ) (depth : Nat) : Nameless κ :=
  match t with
  | bound i => if i < depth then bound i else bound (i + 1)
  | const c => const c
  | lam b => lam (b.lift (depth + 1))
  | app f a => app (f.lift depth) (a.lift depth)

/-- `s` for the variable of the abstraction that has `depth` others between it and `t`. The
abstraction goes away, so the variables of those around it are one lower. -/
def subst (t : Nameless κ) (depth : Nat) (s : Nameless κ) : Nameless κ :=
  match t with
  | bound i => if i < depth then bound i else if i = depth then s else bound (i - 1)
  | const c => const c
  | lam b => lam (b.subst (depth + 1) (s.lift 0))
  | app f a => app (f.subst depth s) (a.subst depth s)

def instantiate (body argument : Nameless κ) : Nameless κ :=
  body.subst 0 argument

/-- Every variable is bound in the term or by one of the `depth` abstractions around it. -/
def Scoped (depth : Nat) : Nameless κ → Prop
  | bound i => i < depth
  | const _ => True
  | lam b => b.Scoped (depth + 1)
  | app f a => f.Scoped depth ∧ a.Scoped depth

theorem lift_lift (t : Nameless κ) {i j : Nat} (h : i ≤ j) :
    (t.lift j).lift i = (t.lift i).lift (j + 1) := by
  induction t generalizing i j with
  | bound n =>
    by_cases hi : n < i
    · have hj : n < j := by omega
      have hj' : n < j + 1 := by omega
      simp only [lift, if_pos hi, if_pos hj, if_pos hj']
    · by_cases hj : n < j
      · have hj' : n + 1 < j + 1 := by omega
        simp only [lift, if_neg hi, if_pos hj, if_pos hj']
      · have hi' : ¬n + 1 < i := by omega
        have hj' : ¬n + 1 < j + 1 := by omega
        simp only [lift, if_neg hi, if_neg hj, if_neg hi', if_neg hj']
  | const c => rfl
  | lam b ih => simp only [lift, ih (show i + 1 ≤ j + 1 by omega)]
  | app f a ihf iha => simp only [lift, ihf h, iha h]

theorem subst_lift_self (t : Nameless κ) (k : Nat) (s : Nameless κ) : (t.lift k).subst k s = t := by
  induction t generalizing k s with
  | bound n =>
    by_cases h : n < k
    · simp only [lift, subst, if_pos h]
    · have h₁ : ¬n + 1 < k := by omega
      have h₂ : n + 1 ≠ k := by omega
      simp only [lift, subst, if_neg h, if_neg h₁, if_neg h₂, Nat.add_sub_cancel]
  | const c => rfl
  | lam b ih => simp only [lift, subst, ih]
  | app f a ihf iha => simp only [lift, subst, ihf, iha]

/-- Substitution for an outer variable, below a new inner abstraction. -/
theorem subst_lift (t : Nameless κ) {i k : Nat} (s : Nameless κ) (h : i ≤ k) :
    (t.lift i).subst (k + 1) (s.lift i) = (t.subst k s).lift i := by
  induction t generalizing i k s with
  | bound n =>
    rcases Nat.lt_trichotomy n k with hn | hn | hn
    · by_cases hi : n < i
      · have hk : n < k + 1 := by omega
        simp only [lift, subst, if_pos hi, if_pos hn, if_pos hk]
      · have hk : n + 1 < k + 1 := by omega
        simp only [lift, subst, if_neg hi, if_pos hn, if_pos hk]
    · subst hn
      have hi : ¬n < i := by omega
      simp only [lift, subst, if_neg hi, Nat.lt_irrefl, if_false, if_true]
    · have hi : ¬n < i := by omega
      have hi' : ¬n - 1 < i := by omega
      have hk : ¬n < k := by omega
      have hk' : n ≠ k := by omega
      have hs : ¬n + 1 < k + 1 := by omega
      have hs' : n + 1 ≠ k + 1 := by omega
      have he : n - 1 + 1 = n := by omega
      simp only [lift, subst, if_neg hi, if_neg hi', if_neg hk, if_neg hk', if_neg hs, if_neg hs',
        he, Nat.add_sub_cancel]
  | const c => rfl
  | lam b ih =>
    have hs : (s.lift i).lift 0 = (s.lift 0).lift (i + 1) := lift_lift s (Nat.zero_le i)
    simp only [lift, subst, hs, ih (s.lift 0) (show i + 1 ≤ k + 1 by omega)]
  | app f a ihf iha => simp only [lift, subst, ihf s h, iha s h]

/-- A new outer abstraction, around a substitution for an inner variable. -/
theorem lift_subst (t : Nameless κ) {i k : Nat} (s : Nameless κ) (h : i ≤ k) :
    (t.subst i s).lift k = (t.lift (k + 1)).subst i (s.lift k) := by
  induction t generalizing i k s with
  | bound n =>
    rcases Nat.lt_trichotomy n i with hn | hn | hn
    · have hk : n < k := by omega
      have hk' : n < k + 1 := by omega
      simp only [lift, subst, if_pos hn, if_pos hk, if_pos hk']
    · subst hn
      have hk : n < k + 1 := by omega
      simp only [lift, subst, Nat.lt_irrefl, if_false, if_true, if_pos hk]
    · have hi : ¬n < i := by omega
      have hi' : n ≠ i := by omega
      by_cases hk : n < k + 1
      · have hk' : n - 1 < k := by omega
        simp only [lift, subst, if_neg hi, if_neg hi', if_pos hk, if_pos hk']
      · have hk' : ¬n - 1 < k := by omega
        have hs : ¬n + 1 < i := by omega
        have hs' : n + 1 ≠ i := by omega
        have he : n - 1 + 1 = n := by omega
        simp only [lift, subst, if_neg hi, if_neg hi', if_neg hk, if_neg hk', if_neg hs, if_neg hs',
          he, Nat.add_sub_cancel]
  | const c => rfl
  | lam b ih =>
    have hs : (s.lift k).lift 0 = (s.lift 0).lift (k + 1) := lift_lift s (Nat.zero_le k)
    simp only [lift, subst, hs, ih (s.lift 0) (show i + 1 ≤ k + 1 by omega)]
  | app f a ihf iha => simp only [lift, subst, ihf s h, iha s h]

/-- The order of two substitutions can be changed. -/
theorem subst_subst (t : Nameless κ) {i k : Nat} (u s : Nameless κ) (h : i ≤ k) :
    (t.subst i u).subst k s = (t.subst (k + 1) (s.lift i)).subst i (u.subst k s) := by
  induction t generalizing i k u s with
  | bound n =>
    rcases Nat.lt_trichotomy n i with hn | hn | hn
    · have hk : n < k := by omega
      have hk' : n < k + 1 := by omega
      simp only [subst, if_pos hn, if_pos hk, if_pos hk']
    · subst hn
      have hk : n < k + 1 := by omega
      simp only [subst, Nat.lt_irrefl, if_false, if_true, if_pos hk]
    · have hi : ¬n < i := by omega
      have hi' : n ≠ i := by omega
      rcases Nat.lt_trichotomy n (k + 1) with hk | hk | hk
      · have hk' : n - 1 < k := by omega
        simp only [subst, if_neg hi, if_neg hi', if_pos hk, if_pos hk']
      · subst hk
        simp only [subst, if_neg hi, if_neg hi', Nat.add_sub_cancel, Nat.lt_irrefl, if_false,
          if_true, subst_lift_self]
      · have hs : ¬n < k + 1 := by omega
        have hs' : n ≠ k + 1 := by omega
        have hp : ¬n - 1 < k := by omega
        have hp' : n - 1 ≠ k := by omega
        have hq : ¬n - 1 < i := by omega
        have hq' : n - 1 ≠ i := by omega
        simp only [subst, if_neg hi, if_neg hi', if_neg hs, if_neg hs', if_neg hp, if_neg hp',
          if_neg hq, if_neg hq']
  | const c => rfl
  | lam b ih =>
    have hs : (s.lift i).lift 0 = (s.lift 0).lift (i + 1) := lift_lift s (Nat.zero_le i)
    have hu : (u.subst k s).lift 0 = (u.lift 0).subst (k + 1) (s.lift 0) :=
      (subst_lift u s (Nat.zero_le k)).symm
    simp only [subst, hs, hu, ih (u.lift 0) (s.lift 0) (show i + 1 ≤ k + 1 by omega)]
  | app f a ihf iha => simp only [subst, ihf u s h, iha u s h]

theorem lift_instantiate (b a : Nameless κ) (k : Nat) :
    (b.instantiate a).lift k = (b.lift (k + 1)).instantiate (a.lift k) :=
  lift_subst b a (Nat.zero_le k)

theorem subst_instantiate (b a : Nameless κ) (k : Nat) (s : Nameless κ) :
    (b.instantiate a).subst k s = (b.subst (k + 1) (s.lift 0)).instantiate (a.subst k s) :=
  subst_subst b a s (Nat.zero_le k)

theorem lift_of_scoped {t : Nameless κ} {n k : Nat} (h : t.Scoped n) (hk : n ≤ k) :
    t.lift k = t := by
  induction t generalizing n k with
  | bound i =>
    have hi : i < k := Nat.lt_of_lt_of_le h hk
    simp only [lift, if_pos hi]
  | const c => rfl
  | lam b ih => simp only [lift, ih h (show n + 1 ≤ k + 1 by omega)]
  | app f a ihf iha => simp only [lift, ihf h.1 hk, iha h.2 hk]

theorem subst_of_scoped {t : Nameless κ} {n k : Nat} (s : Nameless κ) (h : t.Scoped n)
    (hk : n ≤ k) : t.subst k s = t := by
  induction t generalizing n k s with
  | bound i =>
    have hi : i < k := Nat.lt_of_lt_of_le h hk
    simp only [subst, if_pos hi]
  | const c => rfl
  | lam b ih => simp only [subst, ih (s.lift 0) h (show n + 1 ≤ k + 1 by omega)]
  | app f a ihf iha => simp only [subst, ihf s h.1 hk, iha s h.2 hk]

end Nameless

end NormalOrder
