import NormalOrder.Proofs.Nameless.Basic

/-!
# Contraction of nameless terms

A redex is an abstraction applied to an argument, or a constant that has a definition. Contraction
replaces it by the body with the argument, or by the definition, and leaves the rest of the term as
it is. A term without a redex is normal.

The places of a term are ordered from the outside in and from left to right, function before
argument. The first redex in this order is the one that normal order contracts.
-/

namespace NormalOrder.Nameless

variable {κ : Type}

inductive Turn
  | body
  | function
  | argument
deriving DecidableEq, Repr

/-- The way from a term down to one of its parts. -/
abbrev Place := List Turn

/-- The order of places: a term comes before its parts, and a function before its argument. -/
inductive Precedes : Place → Place → Prop
  | here (q : Place) : Precedes [] q
  | along (turn : Turn) {p q : Place} (h : Precedes p q) : Precedes (turn :: p) (turn :: q)
  | leftOf (p q : Place) : Precedes (.function :: p) (.argument :: q)

inductive ContractsAt (δ : κ → Option (Nameless κ)) : Place → Nameless κ → Nameless κ → Prop
  | beta (b a : Nameless κ) : ContractsAt δ [] (app (lam b) a) (b.instantiate a)
  | delta {c : κ} {d : Nameless κ} (h : δ c = some d) : ContractsAt δ [] (const c) d
  | body {p : Place} {b b' : Nameless κ} (h : ContractsAt δ p b b') :
      ContractsAt δ (.body :: p) (lam b) (lam b')
  | function {p : Place} {f f' : Nameless κ} (a : Nameless κ) (h : ContractsAt δ p f f') :
      ContractsAt δ (.function :: p) (app f a) (app f' a)
  | argument {p : Place} (f : Nameless κ) {a a' : Nameless κ} (h : ContractsAt δ p a a') :
      ContractsAt δ (.argument :: p) (app f a) (app f a')

variable (δ : κ → Option (Nameless κ))

def Contracts (t u : Nameless κ) : Prop :=
  ∃ p, ContractsAt δ p t u

/-- Contraction of the leftmost outermost redex. -/
def ContractsFirst (t u : Nameless κ) : Prop :=
  ∃ p, ContractsAt δ p t u ∧ ∀ q v, ContractsAt δ q t v → Precedes p q

def isLam : Nameless κ → Bool
  | lam _ => true
  | _ => false

/-- No part is an abstraction applied to an argument, or a constant that has a definition. -/
def Normal : Nameless κ → Prop
  | bound _ => True
  | const c => δ c = none
  | lam b => b.Normal
  | app f a => f.isLam = false ∧ f.Normal ∧ a.Normal

def contract? : Nameless κ → Option (Nameless κ)
  | bound _ => none
  | const c => δ c
  | lam b => b.contract?.map lam
  | app (lam b) a => some (b.instantiate a)
  | app f a =>
    match f.contract? with
    | some f' => some (app f' a)
    | none => a.contract?.map (app f)

variable {δ}

theorem contract?_app {f : Nameless κ} (a : Nameless κ) (hf : f.isLam = false) :
    contract? δ (app f a) =
      match contract? δ f with
      | some f' => some (app f' a)
      | none => (contract? δ a).map (app f) := by
  cases f with
  | bound i => rfl
  | const c => rfl
  | lam b => cases hf
  | app g c => rfl

theorem not_contractsAt_of_normal {t : Nameless κ} (h : t.Normal δ) (p : Place) (u : Nameless κ) :
    ¬ContractsAt δ p t u := by
  intro hc
  induction hc with
  | beta b a => cases h.1
  | delta hd =>
    have hn := Eq.trans hd.symm h
    cases hn
  | body _ ih => exact ih h
  | function a _ ih => exact ih h.2.1
  | argument f _ ih => exact ih h.2.2

/-- A term is normal exactly when there is nothing to contract. -/
theorem contract?_eq_none_iff (t : Nameless κ) : contract? δ t = none ↔ t.Normal δ := by
  induction t with
  | bound i => exact iff_of_true rfl trivial
  | const c => exact Iff.rfl
  | lam b ih =>
    simp only [contract?, Option.map_eq_none_iff]
    exact ih
  | app f a ihf iha =>
    cases hf : f.isLam with
    | true =>
      constructor
      · intro h
        cases f with
        | lam b => cases h
        | _ => cases hf
      · intro h
        have := h.1.symm.trans hf
        cases this
    | false =>
      rw [contract?_app a hf]
      constructor
      · intro h
        split at h
        · cases h
        · next hnone => exact ⟨hf, ihf.1 hnone, iha.1 (Option.map_eq_none_iff.1 h)⟩
      · rintro ⟨-, hnf, hna⟩
        rw [ihf.2 hnf, iha.2 hna]
        rfl

theorem contractsFirst_lam {b b' : Nameless κ} (h : ContractsFirst δ b b') :
    ContractsFirst δ (lam b) (lam b') := by
  obtain ⟨p, hp, hfirst⟩ := h
  refine ⟨.body :: p, .body hp, ?_⟩
  intro q v hq
  cases hq with
  | body hq => exact .along _ (hfirst _ _ hq)

theorem contractsFirst_function {f f' : Nameless κ} (a : Nameless κ) (hf : f.isLam = false)
    (h : ContractsFirst δ f f') : ContractsFirst δ (app f a) (app f' a) := by
  obtain ⟨p, hp, hfirst⟩ := h
  refine ⟨.function :: p, .function a hp, ?_⟩
  intro q v hq
  cases hq with
  | beta b a => cases hf
  | function _ hq => exact .along _ (hfirst _ _ hq)
  | argument _ hq => exact .leftOf _ _

theorem contractsFirst_argument {f a a' : Nameless κ} (hf : f.isLam = false) (hnf : f.Normal δ)
    (h : ContractsFirst δ a a') : ContractsFirst δ (app f a) (app f a') := by
  obtain ⟨p, hp, hfirst⟩ := h
  refine ⟨.argument :: p, .argument f hp, ?_⟩
  intro q v hq
  cases hq with
  | beta b a => cases hf
  | function _ hq => exact absurd hq (not_contractsAt_of_normal hnf _ _)
  | argument _ hq => exact .along _ (hfirst _ _ hq)

/-- What is contracted is the first redex in the order of places. -/
theorem contractsFirst_of_contract? {t u : Nameless κ} (h : contract? δ t = some u) :
    ContractsFirst δ t u := by
  induction t generalizing u with
  | bound i => cases h
  | const c => exact ⟨[], .delta h, fun q _ _ => .here q⟩
  | lam b ih =>
    obtain ⟨b', hb, rfl⟩ := Option.map_eq_some_iff.1 h
    exact contractsFirst_lam (ih hb)
  | app f a ihf iha =>
    cases hf : f.isLam with
    | true =>
      cases f with
      | lam b =>
        have hu := Option.some.inj h
        subst hu
        exact ⟨[], .beta b a, fun q _ _ => .here q⟩
      | _ => cases hf
    | false =>
      rw [contract?_app a hf] at h
      split at h
      · next f' hf' =>
        have hu := Option.some.inj h
        subst hu
        exact contractsFirst_function a hf (ihf hf')
      · next hnone =>
        obtain ⟨a', ha, rfl⟩ := Option.map_eq_some_iff.1 h
        exact contractsFirst_argument hf ((contract?_eq_none_iff f).1 hnone) (iha ha)

end NormalOrder.Nameless
