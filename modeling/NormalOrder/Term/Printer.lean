import NormalOrder.Term.Substitution

/-!
# Written terms

The text of a term, with no more parentheses than reading it back needs. A reference is written like
a variable, so a binder that would seem to bind a reference in its body is written under a fresh
name.

An outline of a term is an indented tree, one node to a line and four blanks to a level.
-/

namespace NormalOrder.Term

/-- Where a term stands in the text around it. -/
inductive Position
  /-- On its own: at the top, between parentheses, or as the body of an abstraction. -/
  | whole
  | function
  | argument
deriving DecidableEq, Repr

/-- The binder and body as they are written: renamed if the body refers to a binding of that
name. -/
def reveal (param : String) (body : Term) : String × Term :=
  if param ∈ body.references then
    let fresh := freshName param (param :: body.names)
    (fresh, body.rename param fresh)
  else (param, body)

@[simp] theorem size_reveal (param : String) (body : Term) :
    (reveal param body).2.size = body.size := by
  unfold reveal
  split <;> simp

def enclose (parentheses : Bool) (s : String) : String :=
  if parentheses then "(" ++ s ++ ")" else s

/-- The body of an abstraction extends as far as possible, so an abstraction stands bare only as a
whole; application groups to the left, so it needs parentheses only as an argument. -/
def renderAt (position : Position) (t : Term) : String :=
  match t with
  | var x => x
  | ref x => x
  | lam x b =>
    let shown := reveal x b
    enclose (position ≠ .whole) ("λ" ++ shown.1 ++ ". " ++ renderAt .whole shown.2)
  | app f a =>
    enclose (position = .argument) (renderAt .function f ++ " " ++ renderAt .argument a)
termination_by t.size
decreasing_by
  · simp [size]
  · simp only [size]; omega
  · simp only [size]; omega

def render (t : Term) : String :=
  renderAt .whole t

/-- A level below zero is not indented. -/
def margin (level : Int) : String :=
  String.ofList (List.replicate (4 * level).toNat ' ')

def outline (level : Int) : Term → String
  | var x => margin level ++ "Variable('" ++ x ++ "')"
  | ref x => margin level ++ "Reference('" ++ x ++ "')"
  | lam x b =>
    margin level ++ "Abstraction(param='" ++ x ++ "',\n" ++ b.outline (level + 1) ++ "\n" ++
      margin level ++ ")"
  | app f a =>
    margin level ++ "Application(\n" ++ f.outline (level + 1) ++ ",\n" ++ a.outline (level + 1) ++
      "\n" ++ margin level ++ ")"

end NormalOrder.Term
