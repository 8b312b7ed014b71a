import NormalOrder.Proofs.Nameless.Alpha
import NormalOrder.Proofs.Normalization
import NormalOrder.Proofs.Prelude.Numerals
import NormalOrder.Proofs.References

/-!
# The prelude computes arithmetic

A function of the prelude that is applied to numerals, and a numerical result to two more variables,
halts with that many applications of the first to the second; a comparison halts with a truth value.
The variables are free, and no binding of the prelude bears their names.
-/

namespace NormalOrder

namespace Term

/-- `f` applied to `x` as many times as the number says. -/
def times (f x : String) (n : Nat) : Term :=
  (app (var f))^[n] (var x)

def church (n : Nat) : Term :=
  lams ["f", "x"] (times "f" "x" n)

theorem assign_times {κ : Type} (ν : Naming κ) (ρ : Assignment κ) (f x : String) (n : Nat) :
    (times f x n).assign ν ρ = (Nameless.app (ρ f))^[n] (ρ x) := by
  induction n with
  | zero => rfl
  | succ n ih =>
    rw [times, Function.iterate_succ_apply', Function.iterate_succ_apply', ← ih]
    rfl

theorem references_times (f x : String) (n : Nat) : (times f x n).references = [] := by
  induction n with
  | zero => rfl
  | succ n ih =>
    rw [times, Function.iterate_succ_apply']
    exact ih

/-- A term with the form of so many applications is just these, if it refers to neither name. -/
theorem eq_times_of_globalForm {f x : String} {n : Nat} {t : Term}
    (h : t.globalForm = (Nameless.app (.const f))^[n] (.const x)) (hf : f ∉ t.references)
    (hx : x ∉ t.references) : t = times f x n := by
  have hconst : ∀ {u : Term} {y : String}, u.globalForm = .const y → y ∉ u.references →
      u = var y := by
    intro u y hu hy
    cases u with
    | var z =>
      cases hu
      rfl
    | ref z =>
      cases hu
      exact absurd List.mem_cons_self hy
    | lam z b => cases hu
    | app g a => cases hu
  induction n generalizing t with
  | zero => exact hconst h hx
  | succ n ih =>
    rw [Function.iterate_succ_apply'] at h
    cases t with
    | app g a =>
      obtain ⟨hg, ha⟩ := Nameless.app.inj h
      simp only [references, List.mem_append, not_or] at hf hx
      rw [times, Function.iterate_succ_apply', hconst hg hf.1, ih ha hf.2 hx.2]
      rfl
    | var z => cases h
    | ref z => cases h
    | lam z b => cases h

theorem globalForm_applyAll (f : Term) (arguments : List Term) :
    (f.applyAll arguments).globalForm = f.globalForm.applyAll (arguments.map globalForm) := by
  induction arguments generalizing f with
  | nil => rfl
  | cons a arguments ih => exact ih (app f a)

theorem references_applyAll (f : Term) (arguments : List Term) :
    (f.applyAll arguments).references = f.references ++ arguments.flatMap references := by
  induction arguments generalizing f with
  | nil => exact (List.append_nil _).symm
  | cons a arguments ih => rw [List.flatMap_cons, ← List.append_assoc]; exact ih (app f a)

end Term

theorem Nameless.normal_iterate {κ : Type} {δ : κ → Option (Nameless κ)} {f x : κ} (hf : δ f = none)
    (hx : δ x = none) (n : Nat) : ((app (.const f))^[n] (.const x)).Normal δ := by
  rw [← contract?_eq_none_iff]
  induction n with
  | zero => exact hx
  | succ n ih =>
    rw [Function.iterate_succ_apply', contract?_app _ rfl, contract?, hf, ih]
    rfl

/-- Without a limit, the run of a term halts with a result that has the property. -/
def Reduction.Halts (env : Environment) (t : Term) (p : Term → Prop) : Prop :=
  ∃ r looks, r.outcome = .halted ∧ p r.term ∧
    ∀ patience, looks ≤ patience → run env .unbounded patience t = some r

namespace Prelude

open Nameless Reduction Term

theorem represents_church (n : Nat) : Represents (church n).globalForm n := by
  intro f x
  have h : Yields ((church n).globalForm.applyAll [f, x])
      ((times "f" "x" n).assign .shared
        (Assignment.enter (.ofBinders .shared []) ["f", "x"] [f, x])) := by
    rw [globalForm, nameless_eq_assign]
    exact reduces_lams .shared _ _ rfl
  rwa [assign_times] at h

theorem references_church (n : Nat) : (church n).references = [] :=
  references_times "f" "x" n

/-- The definitions of the prelude mention nothing but its names. -/
theorem mem_names_of_mentions {y : String} (h : environment.Mentions y) :
    y ∈ environment.names := by
  obtain ⟨e, he, hy⟩ := h
  have hclosed : ∀ e ∈ table, ∀ y ∈ e.2.references ++ e.2.free, y ∈ table.map Prod.fst := by
    decide +kernel
  rw [entries_environment] at he
  rw [Roster.names, entries_environment]
  exact hclosed e he y (List.mem_append.2 hy)

theorem definitions_eq_none {x : String} (h : x ∉ environment.names) :
    environment.definitions x = none := by
  cases hfind : environment.find? x with
  | none => rw [Environment.definitions, hfind]; rfl
  | some d =>
    exact absurd (List.mem_map_of_mem (f := Prod.fst) (Roster.find?_eq_some_iff.1 hfind)) h

/-- A function of the prelude that makes a number of some numbers halts with as many applications of
one variable to another. -/
theorem halts_times (name : String) (numbers : List Nat) {k : Nat} {f x : String}
    (h : Represents (.applyAll (.const name) (numbers.map fun n => (church n).globalForm)) k)
    (hf : f ∉ environment.names) (hx : x ∉ environment.names) :
    Halts environment (applyAll (var name) (numbers.map church ++ [var f, var x]))
      (· = times f x k) := by
  have hnormal : ((Nameless.app (.const f))^[k] (.const x)).Normal environment.definitions :=
    normal_iterate (definitions_eq_none hf) (definitions_eq_none hx) k
  have hyields : Yields (applyAll (var name) (numbers.map church ++ [var f, var x])).globalForm
      ((Nameless.app (.const f))^[k] (.const x)) := by
    rw [globalForm_applyAll, List.map_append, List.map_map, Nameless.applyAll, List.foldl_append]
    exact h (.const f) (.const x)
  obtain ⟨r, looks, houtcome, hform, hrun⟩ := run_of_contracts hyields hnormal
  have hreferences : (applyAll (var name) (numbers.map church ++ [var f, var x])).references =
      [] := by
    simp [references_applyAll, references, references_church]
  -- The prelude mentions neither name, so neither can have become a reference on the way.
  have hmentions := mentions_of_run hreferences (hrun looks (Nat.le_refl looks))
  refine ⟨r, looks, houtcome, eq_times_of_globalForm hform ?_ ?_, hrun⟩
  · exact fun hmem => hf (mem_names_of_mentions (hmentions f hmem))
  · exact fun hmem => hx (mem_names_of_mentions (hmentions x hmem))

/-- A term that is the definition of a truth value up to the names of bound variables. -/
def IsTruth (b : Bool) (t : Term) : Prop :=
  ∃ d, environment.find? (truthName b) = some d ∧ t.alphaEq d = true

theorem halts_truth {t : Term} {b : Bool} (h : Yields t.globalForm (truth b)) :
    Halts environment t (IsTruth b) := by
  have hlookup : ∃ d, table.lookup (truthName b) = some d ∧ d.free = [] ∧ d.references = [] ∧
      d.globalForm.contract? environment.definitions = none := by
    cases b with
    | true => exact ⟨_, rfl, rfl, rfl, rfl⟩
    | false => exact ⟨_, rfl, rfl, rfl, rfl⟩
  obtain ⟨d, hd, hfree, hreferences, hnone⟩ := hlookup
  have hyields : Yields t.globalForm d.globalForm := h.trans (yields_definition hd)
  obtain ⟨r, looks, houtcome, hform, hrun⟩ :=
    run_of_contracts hyields ((contract?_eq_none_iff _).1 hnone)
  refine ⟨r, looks, houtcome, ⟨d, ?_, ?_⟩, hrun⟩
  · rw [find?_environment, hd]
  · exact (alphaEq_closed_iff hfree hreferences r.term []).2 hform

/-- With the bindings of the prelude, every function of numbers halts with its value, applied to `f`
and `x`, and every comparison with its truth value. -/
theorem prelude_computes_arithmetic (m n : Nat) (f x : String) (hf : f ∉ environment.names)
    (hx : x ∉ environment.names) :
    Halts environment (applyAll (var "succ") [church n, var f, var x]) (· = times f x (n + 1)) ∧
    Halts environment (applyAll (var "plus") [church m, church n, var f, var x])
      (· = times f x (m + n)) ∧
    Halts environment (applyAll (var "mult") [church m, church n, var f, var x])
      (· = times f x (m * n)) ∧
    Halts environment (applyAll (var "pow") [church m, church n, var f, var x])
      (· = times f x (m ^ n)) ∧
    Halts environment (applyAll (var "pred") [church n, var f, var x]) (· = times f x (n - 1)) ∧
    Halts environment (applyAll (var "sub") [church m, church n, var f, var x])
      (· = times f x (m - n)) ∧
    Halts environment (applyAll (var "iszero") [church n]) (IsTruth (n = 0)) ∧
    Halts environment (applyAll (var "leq") [church m, church n]) (IsTruth (m ≤ n)) ∧
    Halts environment (applyAll (var "eq") [church m, church n]) (IsTruth (m = n)) := by
  have hm := represents_church m
  have hn := represents_church n
  exact ⟨halts_times "succ" [n] hn.succ hf hx, halts_times "plus" [m, n] (hm.plus hn) hf hx,
    halts_times "mult" [m, n] (hm.mult hn) hf hx, halts_times "pow" [m, n] (hm.pow hn) hf hx,
    halts_times "pred" [n] hn.pred hf hx, halts_times "sub" [m, n] (hm.sub hn) hf hx,
    halts_truth hn.iszero, halts_truth (hm.leq hn), halts_truth (hm.eq hn)⟩

/-- The variables may have names that the definitions bind themselves. -/
theorem prelude_computes_arithmetic_bound_names :
    ("n" ∉ environment.names ∧ "g" ∉ environment.names) ∧
    Halts environment (applyAll (var "sub") [church 7, church 4, var "n", var "g"])
      (· = app (var "n") (app (var "n") (app (var "n") (var "g")))) ∧
    Halts environment (applyAll (var "leq") [church 7, church 4]) (IsTruth false) := by
  have hnames : "n" ∉ environment.names ∧ "g" ∉ environment.names := by
    rw [Roster.names, entries_environment]
    decide +kernel
  obtain ⟨-, -, -, -, -, hsub, -, hleq, -⟩ :=
    prelude_computes_arithmetic 7 4 "n" "g" hnames.1 hnames.2
  exact ⟨hnames, hsub, hleq⟩

end Prelude

end NormalOrder
