import Mathlib.Data.ENat.Lattice
import NormalOrder.Proofs.Runs

/-!
# Where a run ends and why

Three counts of steps decide about a run: after how many a normal form is met, at how many the limit
is, and after how many it is cancelled. Each of them may be infinite. A run ends at the least of
them, and goes on for ever if all are infinite. Which of them counts when some are equal follows
from the order in which a run looks at them.
-/

namespace NormalOrder.Reduction

/-- The term that some number of steps leads to, if so many can be made. -/
def termAt (env : Environment) (t : Term) : Nat → Option Term
  | 0 => some t
  | n + 1 => (termAt env t n).bind (step env)

def NormalAt (env : Environment) (t : Term) (n : Nat) : Prop :=
  ∃ u, termAt env t n = some u ∧ step env u = none

instance (env : Environment) (t : Term) : DecidablePred (NormalAt env t) := fun n =>
  decidable_of_iff ((termAt env t n).any (fun u => (step env u).isNone) = true) (by
    unfold NormalAt
    cases termAt env t n <;> simp)

open Classical in
/-- The number of steps to the first normal form, infinite if none is met. -/
noncomputable def stepsToNormal (env : Environment) (t : Term) : ℕ∞ :=
  if h : ∃ n, NormalAt env t n then (Nat.find h : ℕ∞) else ⊤

/-- The number of steps that a limit leaves room for; a negative limit leaves room for none. -/
def roomFor : Option Int → ℕ∞
  | some limit => (limit.toNat : ℕ∞)
  | none => ⊤

def cancelPoint : Option Nat → ℕ∞
  | some n => (n : ℕ∞)
  | none => ⊤

/-- How a run ends for which a normal form, the limit and the cancellation come after the given
numbers of steps. -/
noncomputable def Outcome.ofCounts (normal limit cancel : ℕ∞) : Outcome :=
  let last := min normal (min limit cancel)
  if last = limit ∧ limit = normal then .halted
  else if last = limit ∧ limit < normal then .limitReached
  else if last = cancel ∧ cancel < limit then .cancelled
  else .halted

/-- At the last step the limit comes first, and then the cancellation. -/
theorem Outcome.ofCounts_of_min_eq {normal limit cancel last : ℕ∞}
    (h : min normal (min limit cancel) = last) :
    ofCounts normal limit cancel =
      if limit = last then if normal = last then .halted else .limitReached
      else if cancel = last then .cancelled else .halted := by
  have hnormal : last ≤ normal := h ▸ min_le_left _ _
  have hlimit : last ≤ limit := h ▸ (min_le_right _ _).trans (min_le_left _ _)
  simp only [ofCounts, h]
  by_cases hl : limit = last
  · subst hl
    by_cases hn : normal = limit
    · simp [hn]
    · simp [hn, Ne.symm hn, lt_of_le_of_ne hnormal (Ne.symm hn)]
  · have hlt : last < limit := lt_of_le_of_ne hlimit (Ne.symm hl)
    by_cases hc : cancel = last
    · simp [hl, hc, hlt.ne, hlt]
    · simp [hl, hc, hlt.ne, Ne.symm hc]

section Terms

variable {env : Environment} {t u : Term} {m n : Nat}

theorem termAt_eq_none_of_le (h : termAt env t m = none) (hmn : m ≤ n) : termAt env t n = none := by
  induction hmn with
  | refl => exact h
  | step _ ih => rw [termAt, ih, Option.bind_none]

/-- In front of a term that is reached no normal form is met. -/
theorem not_normalAt_of_lt (hu : termAt env t n = some u) (hmn : m < n) : ¬ NormalAt env t m := by
  rintro ⟨v, hv, hnone⟩
  have hnext : termAt env t (m + 1) = none := by rw [termAt, hv, Option.bind_some, hnone]
  cases hu.symm.trans (termAt_eq_none_of_le hnext hmn)

theorem stepsToNormal_eq_iff (hu : termAt env t n = some u) :
    stepsToNormal env t = n ↔ step env u = none := by
  unfold stepsToNormal
  constructor
  · intro h
    split at h
    · next hex =>
      obtain ⟨v, hv, hnone⟩ := Nat.find_spec hex
      rw [Nat.cast_inj.1 h, hu] at hv
      cases hv
      exact hnone
    · cases h
  · intro hnone
    have hn : NormalAt env t n := ⟨u, hu, hnone⟩
    rw [dif_pos ⟨n, hn⟩, (Nat.find_eq_iff _).2 ⟨hn, fun m hm => not_normalAt_of_lt hu hm⟩]

theorem step_ne_none_of_lt (hu : termAt env t n = some u) (h : (n : ℕ∞) < stepsToNormal env t) :
    step env u ≠ none :=
  fun hnone => h.ne' ((stepsToNormal_eq_iff hu).2 hnone)

end Terms

namespace Bounds

theorem limitReached_iff (b : Bounds) (n : Nat) :
    b.limitReached n = true ↔ roomFor b.limit ≤ n := by
  unfold limitReached
  cases b.limit with
  | none => simp [roomFor]
  | some limit =>
    simp only [roomFor, decide_eq_true_eq, Nat.cast_le]
    omega

/-- The flag is lowered up to the point of cancellation, and raised from there on. -/
theorem flag_eq (b : Bounds) (n : Nat) : b.flag n = ⟨decide (cancelPoint b.cancelAfter ≤ n)⟩ := by
  unfold flag
  cases b.cancelAfter with
  | none => simp [cancelPoint]
  | some k => by_cases h : k ≤ n <;> simp [cancelPoint, CancelFlag.cancel, h]

theorem cancelled_iff (b : Bounds) (n : Nat) :
    b.cancelled n = true ↔ cancelPoint b.cancelAfter ≤ n := by
  rw [cancelled, flag_eq, decide_eq_true_iff]

noncomputable def lastStep (b : Bounds) (env : Environment) (t : Term) : ℕ∞ :=
  min (stepsToNormal env t) (min (roomFor b.limit) (cancelPoint b.cancelAfter))

theorem lastStep_le_roomFor (b : Bounds) (env : Environment) (t : Term) :
    b.lastStep env t ≤ roomFor b.limit :=
  (min_le_right _ _).trans (min_le_left _ _)

theorem lastStep_le_cancelPoint (b : Bounds) (env : Environment) (t : Term) :
    b.lastStep env t ≤ cancelPoint b.cancelAfter :=
  (min_le_right _ _).trans (min_le_right _ _)

noncomputable def outcome (b : Bounds) (env : Environment) (t : Term) : Outcome :=
  .ofCounts (stepsToNormal env t) (roomFor b.limit) (cancelPoint b.cancelAfter)

end Bounds

section Runs

variable {env : Environment} {b : Bounds} {t u : Term} {n : Nat}

/-- Before the last step, a run goes on to the next term. -/
theorem move_of_lt (hu : termAt env t n = some u) (hn : (n : ℕ∞) < b.lastStep env t) :
    ∃ v, termAt env t (n + 1) = some v ∧ move env b u n = .go v := by
  obtain ⟨hnormal, hlimit, hcancel⟩ : (n : ℕ∞) < stepsToNormal env t ∧
      (n : ℕ∞) < roomFor b.limit ∧ (n : ℕ∞) < cancelPoint b.cancelAfter := by
    simpa only [Bounds.lastStep, lt_min_iff] using hn
  obtain ⟨v, hv⟩ := Option.ne_none_iff_exists'.1 (step_ne_none_of_lt hu hnormal)
  refine ⟨v, by rw [termAt, hu, Option.bind_some, hv], ?_⟩
  have hnlimit : ¬ b.limitReached n = true := fun h => hlimit.not_ge ((b.limitReached_iff n).1 h)
  have hncancel : ¬ b.cancelled n = true := fun h => hcancel.not_ge ((b.cancelled_iff n).1 h)
  rw [move, if_neg hnlimit, if_neg hncancel, hv]

/-- At the last step, a run looks at the limit first, then at the cancellation and then at the
term. -/
theorem move_of_eq (hu : termAt env t n = some u) (hn : b.lastStep env t = n) :
    move env b u n = .stop (b.outcome env t) := by
  have hmin :
      min (stepsToNormal env t) (min (roomFor b.limit) (cancelPoint b.cancelAfter)) = n := hn
  have hlimit : (n : ℕ∞) ≤ roomFor b.limit := hn ▸ b.lastStep_le_roomFor env t
  have hcancel : (n : ℕ∞) ≤ cancelPoint b.cancelAfter := hn ▸ b.lastStep_le_cancelPoint env t
  have hl : b.limitReached n = true ↔ roomFor b.limit = n :=
    (b.limitReached_iff n).trans hlimit.ge_iff_eq'
  have hc : b.cancelled n = true ↔ cancelPoint b.cancelAfter = n :=
    (b.cancelled_iff n).trans hcancel.ge_iff_eq'
  have hnormal : roomFor b.limit ≠ n → cancelPoint b.cancelAfter ≠ n → step env u = none := by
    intro hnl hnc
    rcases min_eq_iff.1 hmin with ⟨h, -⟩ | ⟨h, -⟩
    · exact (stepsToNormal_eq_iff hu).1 h
    · rcases min_eq_iff.1 h with ⟨h, -⟩ | ⟨h, -⟩
      · exact absurd h hnl
      · exact absurd h hnc
  rw [move, Bounds.outcome, Outcome.ofCounts_of_min_eq hmin]
  simp only [hl, hc, stepsToNormal_eq_iff hu, Option.isNone_iff_eq_none]
  split
  · rfl
  · next hnl =>
    split
    · rfl
    · next hnc => rw [hnormal hnl hnc]

/-- A trace that may look at enough terms goes through all terms up to the last step. -/
theorem traceFrom_of_lastStep {k fuel : Nat} (hu : termAt env t n = some u)
    (hlast : b.lastStep env t = ((n + k : Nat) : ℕ∞)) (hfuel : k < fuel) :
    ∃ v, termAt env t (n + k) = some v ∧
      (traceFrom env b fuel u n).1.map some = (List.range' (n + 1) k).map (termAt env t) ∧
      (traceFrom env b fuel u n).2 = some ⟨v, n + k, b.outcome env t⟩ := by
  induction k generalizing n u fuel with
  | zero =>
    cases fuel with
    | zero => omega
    | succ fuel =>
      rw [traceFrom, move_of_eq hu hlast]
      exact ⟨u, hu, rfl, rfl⟩
  | succ k ih =>
    cases fuel with
    | zero => omega
    | succ fuel =>
      have hn : (n : ℕ∞) < b.lastStep env t := by
        rw [hlast, Nat.cast_lt]
        omega
      obtain ⟨v, hv, hmove⟩ := move_of_lt hu hn
      have hsum : n + (k + 1) = n + 1 + k := by omega
      rw [hsum] at hlast ⊢
      obtain ⟨w, hw, hterms, hresult⟩ := ih hv hlast (Nat.lt_of_succ_lt_succ hfuel)
      rw [traceFrom, hmove]
      refine ⟨w, hw, ?_, hresult⟩
      rw [List.range'_succ, List.map_cons, List.map_cons, hterms, hv]

/-- A trace that may not look at so many terms goes through as many as it may. -/
theorem traceFrom_of_le_lastStep {fuel : Nat} (hu : termAt env t n = some u)
    (hlast : ((n + fuel : Nat) : ℕ∞) ≤ b.lastStep env t) :
    (traceFrom env b fuel u n).1.map some = (List.range' (n + 1) fuel).map (termAt env t) ∧
      (traceFrom env b fuel u n).2 = none := by
  induction fuel generalizing n u with
  | zero => exact ⟨rfl, rfl⟩
  | succ fuel ih =>
    have hn : (n : ℕ∞) < b.lastStep env t := by
      refine lt_of_lt_of_le ?_ hlast
      rw [Nat.cast_lt]
      omega
    obtain ⟨v, hv, hmove⟩ := move_of_lt hu hn
    have hsum : n + (fuel + 1) = n + 1 + fuel := by omega
    rw [hsum] at hlast
    obtain ⟨hterms, hresult⟩ := ih hv hlast
    rw [traceFrom, hmove]
    refine ⟨?_, hresult⟩
    rw [List.range'_succ, List.map_cons, List.map_cons, hterms, hv]

/-- A run may look at enough terms if it has a limit, or if it has the patience. -/
theorem lt_looks {patience : Nat} (hlast : b.lastStep env t = n)
    (h : b.limit ≠ none ∨ n < patience) : n < b.looks patience := by
  have hroom : (n : ℕ∞) ≤ roomFor b.limit := hlast ▸ b.lastStep_le_roomFor env t
  unfold Bounds.looks
  cases hlimit : b.limit with
  | none => exact h.resolve_left fun hne => hne hlimit
  | some limit =>
    rw [hlimit, roomFor, Nat.cast_le] at hroom
    exact Nat.lt_succ_of_le hroom

theorem looks_of_lastStep_eq_top (hlast : b.lastStep env t = ⊤) (patience : Nat) :
    b.looks patience = patience := by
  unfold Bounds.looks
  cases hlimit : b.limit with
  | none => rfl
  | some limit =>
    have hroom : roomFor b.limit = ⊤ := top_le_iff.1 (hlast ▸ b.lastStep_le_roomFor env t)
    rw [hlimit] at hroom
    cases hroom

end Runs

/-- How runs and traces end. With `normal` steps to a normal form, room for `limit` steps and a
cancellation after `cancel` of them, a run ends at the least of these, with the outcome that they
decide on; the trace goes through all terms on the way. If all are infinite there is no end, however
many terms are looked at. -/
theorem Reducer.trace_run_exact (r : Reducer) (env : Environment) (asked : Option Int)
    (cancelAfter : Option Nat) (t : Term) :
    let effective := if asked = some (-1) then r.limit else asked
    let normal := stepsToNormal env t
    let limit := roomFor effective
    let cancel := cancelPoint cancelAfter
    (∀ n : Nat, min normal (min limit cancel) = n → ∀ patience, effective ≠ none ∨ n < patience →
      ∃ u, termAt env t n = some u ∧
        (r.trace env asked cancelAfter patience t).1.map some =
          (List.range' 1 n).map (termAt env t) ∧
        (r.trace env asked cancelAfter patience t).2 =
          some ⟨u, n, .ofCounts normal limit cancel⟩ ∧
        r.run env asked cancelAfter patience t = some ⟨u, n, .ofCounts normal limit cancel⟩) ∧
    (min normal (min limit cancel) = ⊤ → ∀ patience,
      (r.trace env asked cancelAfter patience t).1.map some =
          (List.range' 1 patience).map (termAt env t) ∧
        (r.trace env asked cancelAfter patience t).2 = none ∧
        r.run env asked cancelAfter patience t = none) := by
  intro effective normal limit cancel
  refine ⟨?_, ?_⟩
  · intro n hn patience hpatience
    have hlast : (r.bounds asked cancelAfter).lastStep env t = n := hn
    have hlooks := lt_looks hlast hpatience
    rw [← Nat.zero_add n] at hlast
    obtain ⟨u, hu, hterms, hresult⟩ := traceFrom_of_lastStep rfl hlast hlooks
    rw [Nat.zero_add] at hu hterms hresult
    refine ⟨u, hu, hterms, hresult, ?_⟩
    rw [Reducer.run, run_eq_snd_trace]
    exact hresult
  · intro htop patience
    have hlast : (r.bounds asked cancelAfter).lastStep env t = ⊤ := htop
    have hgoes : ((0 + patience : Nat) : ℕ∞) ≤ (r.bounds asked cancelAfter).lastStep env t := by
      rw [hlast]
      exact le_top
    obtain ⟨hterms, hresult⟩ := traceFrom_of_le_lastStep rfl hgoes
    have htrace : r.trace env asked cancelAfter patience t =
        traceFrom env (r.bounds asked cancelAfter) patience t 0 := by
      rw [Reducer.trace, Reduction.trace, looks_of_lastStep_eq_top hlast]
    have hrun : r.run env asked cancelAfter patience t =
        (r.trace env asked cancelAfter patience t).2 := run_eq_snd_trace ..
    rw [hrun, htrace]
    exact ⟨hterms, hresult, hresult⟩

/-- A normal form at the very limit counts as such, also if the run is cancelled there. -/
theorem Reducer.trace_run_exact_at_limit :
    let r : Reducer := ⟨some 1⟩
    let t : Term := .app (.lam "x" (.var "x")) (.var "y")
    (r.trace Roster.empty (some (-1)) (some 1) 0 t).1.map some = [some (.var "y")] ∧
      r.run Roster.empty (some (-1)) (some 1) 0 t = some ⟨.var "y", 1, .halted⟩ := by
  intro r t
  have ht : termAt Roster.empty t 1 = some (.var "y") := by decide +kernel
  have hnormal : stepsToNormal Roster.empty t = (1 : Nat) := (stepsToNormal_eq_iff ht).2 (by decide)
  have hmin : min (stepsToNormal Roster.empty t)
      (min (roomFor (if some (-1) = some (-1) then r.limit else some (-1)))
        (cancelPoint (some 1))) =
        (1 : Nat) := by
    rw [hnormal]
    rfl
  obtain ⟨u, hu, hterms, -, hrun⟩ :=
    (trace_run_exact r Roster.empty (some (-1)) (some 1) t).1 1 hmin 0 (.inl (by decide))
  rw [ht] at hu
  cases hu
  rw [hnormal] at hrun
  exact ⟨hterms.trans (congrArg (fun v => [v]) ht), hrun⟩

end NormalOrder.Reduction
