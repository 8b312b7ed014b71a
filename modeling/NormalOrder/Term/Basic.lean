/-!
# λ-terms

Untyped λ-terms with named variables, and references beside them: a reference stands for a binding
of an environment and is never captured by an abstraction.

The name sets of a term are lists read through `∈`; a name that occurs twice is listed twice.
-/

namespace NormalOrder

inductive Term
  | var (name : String)
  | ref (name : String)
  | lam (param : String) (body : Term)
  | app (function argument : Term)
deriving DecidableEq, Repr, Inhabited

namespace Term

/-- The number of nodes. -/
def size : Term → Nat
  | var _ => 1
  | ref _ => 1
  | lam _ b => b.size + 1
  | app f a => f.size + a.size + 1

/-- The variables that occur free. References are not variables. -/
def free : Term → List String
  | var x => [x]
  | ref _ => []
  | lam x b => b.free.filter (· ≠ x)
  | app f a => f.free ++ a.free

/-- All names: of variables, binders and references. -/
def names : Term → List String
  | var x => [x]
  | ref x => [x]
  | lam x b => x :: b.names
  | app f a => f.names ++ a.names

def references : Term → List String
  | var _ => []
  | ref x => [x]
  | lam _ b => b.references
  | app f a => f.references ++ a.references

def isClosed (t : Term) : Bool :=
  t.free.isEmpty

/-- Application to several arguments, grouped to the left. -/
def applyAll (f : Term) (arguments : List Term) : Term :=
  arguments.foldl app f

theorem free_subset_names (t : Term) : ∀ x ∈ t.free, x ∈ t.names := by
  induction t with
  | var y => simp [free, names]
  | ref y => simp [free]
  | lam y b ih =>
    intro x hx
    exact List.mem_cons_of_mem _ (ih x (List.mem_filter.1 hx).1)
  | app f a ihf iha =>
    intro x hx
    rcases List.mem_append.1 hx with h | h
    · exact List.mem_append_left _ (ihf x h)
    · exact List.mem_append_right _ (iha x h)

end Term

end NormalOrder
