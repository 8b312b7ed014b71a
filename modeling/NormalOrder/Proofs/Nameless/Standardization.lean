import Mathlib.Logic.Relation
import NormalOrder.Proofs.Nameless.Contraction

/-!
# Leftmost reduction reaches every normal form

A reduction is standard if it first contracts redexes at the head, until the outermost symbol of its
result is there, and then reduces the parts by standard reductions. Standard reductions can be
followed by any contraction, so everything that can be reached at all is reached by a standard
reduction. A standard reduction to a normal term contracts the leftmost outermost redex at every
step.

Definitions may refer to themselves and to each other, because the argument never looks for an end
of unfolding. All that is needed of them is that they have no variables of abstractions around them.
-/

namespace NormalOrder.Nameless

open Relation

variable {κ : Type}

/-- Contraction of the redex at the head: in the function of an application, and not below an
abstraction. -/
inductive HeadStep (δ : κ → Option (Nameless κ)) : Nameless κ → Nameless κ → Prop
  | beta (b a : Nameless κ) : HeadStep δ (app (lam b) a) (b.instantiate a)
  | delta {c : κ} {d : Nameless κ} (h : δ c = some d) : HeadStep δ (const c) d
  | function {f f' : Nameless κ} (a : Nameless κ) (h : HeadStep δ f f') :
      HeadStep δ (app f a) (app f' a)

inductive Standard (δ : κ → Option (Nameless κ)) : Nameless κ → Nameless κ → Prop
  | bound {t : Nameless κ} {i : Nat} (h : ReflTransGen (HeadStep δ) t (bound i)) :
      Standard δ t (bound i)
  | const {t : Nameless κ} {c : κ} (h : ReflTransGen (HeadStep δ) t (const c)) :
      Standard δ t (const c)
  | lam {t b b' : Nameless κ} (h : ReflTransGen (HeadStep δ) t (lam b)) (hb : Standard δ b b') :
      Standard δ t (lam b')
  | app {t f f' a a' : Nameless κ} (h : ReflTransGen (HeadStep δ) t (app f a))
      (hf : Standard δ f f') (ha : Standard δ a a') : Standard δ t (app f' a')

def ClosedDefinitions (δ : κ → Option (Nameless κ)) : Prop :=
  ∀ c d, δ c = some d → d.Scoped 0

abbrev LeftmostSteps (δ : κ → Option (Nameless κ)) : Nameless κ → Nameless κ → Prop :=
  ReflTransGen fun t u => contract? δ t = some u

variable {δ : κ → Option (Nameless κ)}

section Head

theorem headSteps_function {f f' : Nameless κ} (a : Nameless κ)
    (h : ReflTransGen (HeadStep δ) f f') : ReflTransGen (HeadStep δ) (app f a) (app f' a) :=
  h.lift (fun g => app g a) fun _ _ hstep => HeadStep.function a hstep

theorem HeadStep.lift (closed : ClosedDefinitions δ) {t u : Nameless κ} (h : HeadStep δ t u)
    (k : Nat) : HeadStep δ (t.lift k) (u.lift k) := by
  induction h with
  | beta b a =>
    rw [lift_instantiate]
    exact .beta _ _
  | delta hd =>
    rw [lift_of_scoped (closed _ _ hd) (Nat.zero_le k)]
    exact .delta hd
  | function a _ ih => exact .function _ ih

theorem HeadStep.subst (closed : ClosedDefinitions δ) {t u : Nameless κ} (h : HeadStep δ t u)
    (k : Nat) (s : Nameless κ) : HeadStep δ (t.subst k s) (u.subst k s) := by
  induction h with
  | beta b a =>
    rw [subst_instantiate]
    exact .beta _ _
  | delta hd =>
    rw [subst_of_scoped s (closed _ _ hd) (Nat.zero_le k)]
    exact .delta hd
  | function a _ ih => exact .function _ ih

theorem headSteps_lift (closed : ClosedDefinitions δ) {t u : Nameless κ}
    (h : ReflTransGen (HeadStep δ) t u) (k : Nat) :
    ReflTransGen (HeadStep δ) (t.lift k) (u.lift k) :=
  ReflTransGen.lift (fun v => Nameless.lift v k) (fun _ _ hstep => hstep.lift closed k) _ _ h

theorem headSteps_subst (closed : ClosedDefinitions δ) {t u : Nameless κ}
    (h : ReflTransGen (HeadStep δ) t u) (k : Nat) (s : Nameless κ) :
    ReflTransGen (HeadStep δ) (t.subst k s) (u.subst k s) :=
  ReflTransGen.lift (fun v => Nameless.subst v k s) (fun _ _ hstep => hstep.subst closed k s) _ _ h

theorem HeadStep.isLam_eq_false {t u : Nameless κ} (h : HeadStep δ t u) : t.isLam = false := by
  cases h <;> rfl

theorem HeadStep.contract?_eq {t u : Nameless κ} (h : HeadStep δ t u) : contract? δ t = some u := by
  induction h with
  | beta b a => rfl
  | delta hd => exact hd
  | function a hf ih => rw [contract?_app a hf.isLam_eq_false, ih]

theorem leftmostSteps_of_headSteps {t u : Nameless κ} (h : ReflTransGen (HeadStep δ) t u) :
    LeftmostSteps δ t u :=
  ReflTransGen.mono (fun _ _ hstep => hstep.contract?_eq) t u h

end Head

section Standard

theorem Standard.refl (t : Nameless κ) : Standard δ t t := by
  induction t with
  | bound i => exact .bound .refl
  | const c => exact .const .refl
  | lam b ih => exact .lam .refl ih
  | app f a ihf iha => exact .app .refl ihf iha

theorem Standard.of_headSteps {t u v : Nameless κ} (h : ReflTransGen (HeadStep δ) t u)
    (hs : Standard δ u v) : Standard δ t v := by
  cases hs with
  | bound h' => exact .bound (h.trans h')
  | const h' => exact .const (h.trans h')
  | lam h' hb => exact .lam (h.trans h') hb
  | app h' hf ha => exact .app (h.trans h') hf ha

theorem Standard.lift (closed : ClosedDefinitions δ) {t u : Nameless κ} (h : Standard δ t u)
    (k : Nat) : Standard δ (t.lift k) (u.lift k) := by
  induction h generalizing k with
  | bound h => exact .of_headSteps (headSteps_lift closed h k) (.refl _)
  | const h => exact .const (headSteps_lift closed h k)
  | lam h _ ih => exact .lam (headSteps_lift closed h k) (ih (k + 1))
  | app h _ _ ihf iha => exact .app (headSteps_lift closed h k) (ihf k) (iha k)

/-- Standard reductions of a term and of what is substituted in it together are one. -/
theorem Standard.subst (closed : ClosedDefinitions δ) {t u s s' : Nameless κ} (h : Standard δ t u)
    (hs : Standard δ s s') (k : Nat) : Standard δ (t.subst k s) (u.subst k s') := by
  induction h generalizing k s s' with
  | @bound t i h =>
    refine .of_headSteps (headSteps_subst closed h k s) ?_
    rcases Nat.lt_trichotomy i k with hi | hi | hi
    · simp only [Nameless.subst, if_pos hi]
      exact .refl _
    · subst hi
      simpa only [Nameless.subst, Nat.lt_irrefl, if_false, if_true] using hs
    · have h₁ : ¬i < k := by omega
      have h₂ : i ≠ k := by omega
      simp only [Nameless.subst, if_neg h₁, if_neg h₂]
      exact .refl _
  | const h => exact .const (headSteps_subst closed h k s)
  | lam h _ ih => exact .lam (headSteps_subst closed h k s) (ih (hs.lift closed 0) (k + 1))
  | app h _ _ ihf iha => exact .app (headSteps_subst closed h k s) (ihf hs k) (iha hs k)

/-- A contraction after a standard reduction. For an application of an abstraction, both are brought
to the head first, and are contracted there. -/
theorem Standard.contract (closed : ClosedDefinitions δ) {p : Place} {t u v : Nameless κ}
    (h : Standard δ t u) (hc : ContractsAt δ p u v) : Standard δ t v := by
  induction hc generalizing t with
  | beta b a =>
    obtain - | - | - | ⟨happ, hf, ha⟩ := h
    obtain - | - | ⟨hlam, hb⟩ | - := hf
    have hhead := (happ.trans (headSteps_function _ hlam)).tail (.beta _ _)
    exact .of_headSteps hhead (hb.subst closed ha 0)
  | delta hd =>
    obtain - | hconst | - | - := h
    exact .of_headSteps (hconst.tail (.delta hd)) (.refl _)
  | body _ ih =>
    obtain - | - | ⟨hlam, hb⟩ | - := h
    exact .lam hlam (ih hb)
  | function a _ ih =>
    obtain - | - | - | ⟨happ, hf, ha⟩ := h
    exact .app happ (ih hf) ha
  | argument f _ ih =>
    obtain - | - | - | ⟨happ, hf, ha⟩ := h
    exact .app happ hf (ih ha)

/-- Everything that can be reached is reached by a standard reduction. -/
theorem standard_of_contracts (closed : ClosedDefinitions δ) {t u : Nameless κ}
    (h : ReflTransGen (Contracts δ) t u) : Standard δ t u := by
  induction h with
  | refl => exact .refl t
  | tail _ hstep ih =>
    obtain ⟨p, hp⟩ := hstep
    exact ih.contract closed hp

end Standard

section Leftmost

theorem isLam_of_leftmostSteps {t u : Nameless κ} (h : LeftmostSteps δ t u)
    (hu : u.isLam = false) : t.isLam = false := by
  induction h using ReflTransGen.head_induction_on with
  | refl => exact hu
  | @head t v hstep _ ih =>
    cases t with
    | lam b =>
      obtain ⟨b', -, rfl⟩ := Option.map_eq_some_iff.1 hstep
      cases ih
    | _ => rfl

theorem leftmostSteps_lam {b b' : Nameless κ} (h : LeftmostSteps δ b b') :
    LeftmostSteps δ (lam b) (lam b') := by
  refine h.lift lam ?_
  intro v w hstep
  show contract? δ (lam v) = some (lam w)
  rw [contract?, hstep, Option.map_some]

/-- The function of an application is reduced first, as long as it does not become an
abstraction. -/
theorem leftmostSteps_function {f f' : Nameless κ} (a : Nameless κ) (h : LeftmostSteps δ f f')
    (hf : f'.isLam = false) : LeftmostSteps δ (app f a) (app f' a) := by
  induction h using ReflTransGen.head_induction_on with
  | refl => exact .refl
  | @head g g' hstep hrest ih =>
    have hg : g.isLam = false := isLam_of_leftmostSteps (.head hstep hrest) hf
    have happ : contract? δ (app g a) = some (app g' a) := by
      rw [contract?_app a hg, hstep]
    exact .head happ ih

theorem leftmostSteps_argument {f a a' : Nameless κ} (hf : f.isLam = false) (hn : f.Normal δ)
    (h : LeftmostSteps δ a a') : LeftmostSteps δ (app f a) (app f a') := by
  refine h.lift (app f) ?_
  intro v w hstep
  show contract? δ (app f v) = some (app f w)
  rw [contract?_app v hf, (contract?_eq_none_iff f).2 hn, hstep, Option.map_some]

/-- A standard reduction to a normal term makes leftmost outermost contractions. -/
theorem leftmostSteps_of_standard {t n : Nameless κ} (h : Standard δ t n) (hn : n.Normal δ) :
    LeftmostSteps δ t n := by
  induction h with
  | bound h => exact leftmostSteps_of_headSteps h
  | const h => exact leftmostSteps_of_headSteps h
  | lam h _ ih => exact (leftmostSteps_of_headSteps h).trans (leftmostSteps_lam (ih hn))
  | @app t f f' a a' h _ _ ihf iha =>
    obtain ⟨hlam, hnf, hna⟩ := hn
    have hhead := leftmostSteps_of_headSteps h
    have hfun := leftmostSteps_function a (ihf hnf) hlam
    have harg := leftmostSteps_argument hlam hnf (iha hna)
    exact (hhead.trans hfun).trans harg

theorem leftmostSteps_of_contracts (closed : ClosedDefinitions δ) {t n : Nameless κ}
    (h : ReflTransGen (Contracts δ) t n) (hn : n.Normal δ) : LeftmostSteps δ t n :=
  leftmostSteps_of_standard (standard_of_contracts closed h) hn

end Leftmost

end NormalOrder.Nameless
