import NormalOrder.Roster
import NormalOrder.Term.Basic

/-!
# Equality up to the names of bound variables

Two terms are compared from the outside in, and the binders that are met together are partners. Each
side keeps, for every name, the partners of the binders of that name in a stack, which is all that
is known of the binders: how deep they stand is not kept. Two variables agree when each of them is
the innermost partner of the other, or when neither is bound and their names are equal. References
agree by name only.

A binder is taken from the stacks again when its body has been compared. A name whose stack has
become empty stays in the roster.
-/

namespace NormalOrder.Term

/-- For every name, the partners of the binders of that name, the innermost first. -/
abbrev Partners := Roster (List String)

namespace Partners

def stack (p : Partners) (x : String) : List String :=
  (p.find? x).getD []

def push (p : Partners) (x partner : String) : Partners :=
  p.insert x (partner :: p.stack x)

def pop (p : Partners) (x : String) : Partners :=
  p.insert x (p.stack x).tail

end Partners

/-- The partners of the binders of two terms. -/
structure Matching where
  left : Partners := Roster.empty
  right : Partners := Roster.empty

namespace Matching

def enter (m : Matching) (x y : String) : Matching :=
  ⟨m.left.push x y, m.right.push y x⟩

def leave (m : Matching) (x y : String) : Matching :=
  ⟨m.left.pop x, m.right.pop y⟩

/-- Whether a variable of the left term and one of the right term are the same. -/
def agree (m : Matching) (x y : String) : Bool :=
  match m.left.stack x, m.right.stack y with
  | [], [] => x = y
  | partner :: _, partner' :: _ => partner = y && partner' = x
  | _, _ => false

end Matching

/-- Compares two terms below binders that are partners already. -/
def alphaCompare : Term → Term → Matching → Bool × Matching
  | var x, var y, m => (m.agree x y, m)
  | ref x, ref y, m => (x = y, m)
  | lam x b, lam y c, m =>
    let body := b.alphaCompare c (m.enter x y)
    (body.1, body.2.leave x y)
  | app f a, app g c, m =>
    let function := f.alphaCompare g m
    if function.1 then a.alphaCompare c function.2 else function
  | _, _, m => (false, m)

def alphaEq (t u : Term) : Bool :=
  (t.alphaCompare u {}).1

end NormalOrder.Term
