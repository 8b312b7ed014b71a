import NormalOrder.Roster
import NormalOrder.Term.Alpha

/-!
# Environments

The bindings in scope, in the order in which their names were first defined.

A result is easier to read with names of bindings in place of their definitions. Every largest
abstraction that is a closed binding up to the names of bound variables becomes a reference to it;
of several such bindings the first is taken. Below a binder of the same name a binding is not used,
because its name would mean the bound variable there.
-/

namespace NormalOrder

abbrev Environment := Roster Term

namespace Environment

/-- The names in order, such as `Environment(id, k)`. -/
def describe (env : Environment) : String :=
  "Environment(" ++ String.intercalate ", " env.names ++ ")"

/-- The bindings that can be read back. -/
def readable (env : Environment) : List (String × Term) :=
  env.entries.filter fun e =>
    match e.2 with
    | .lam _ _ => e.2.isClosed
    | _ => false

/-- The name to read an abstraction back as, below the given binders. -/
def nameOf? (candidates : List (String × Term)) (bound : List String) (t : Term) : Option String :=
  (candidates.find? fun e => e.1 ∉ bound && t.alphaEq e.2).map Prod.fst

def readBackUnder (candidates : List (String × Term)) (bound : List String) : Term → Term
  | .var x => .var x
  | .ref x => .ref x
  | .lam x b =>
    match nameOf? candidates bound (.lam x b) with
    | some name => .ref name
    | none => .lam x (readBackUnder candidates (x :: bound) b)
  | .app f a => .app (readBackUnder candidates bound f) (readBackUnder candidates bound a)

def readBack (env : Environment) (t : Term) : Term :=
  readBackUnder env.readable [] t

end Environment

end NormalOrder
