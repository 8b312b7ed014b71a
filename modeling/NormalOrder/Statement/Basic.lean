import NormalOrder.Term.Printer
import NormalOrder.Text.Layout

/-!
# Statements

A line of a program either binds a name to a term or is a term to be reduced.

A comment starts at two semicolons and reaches to the end of the line. A line with more opening than
closing parentheses goes on in the next one; the two are joined by a blank.
-/

namespace NormalOrder

inductive Statement
  | bind (name : String) (term : Term)
  | bare (term : Term)
deriving DecidableEq, Repr

namespace Statement

def term : Statement → Term
  | bind _ t => t
  | bare t => t

def render : Statement → String
  | bind name t => name ++ " = " ++ t.render
  | bare t => t.render

/-- The characters in front of the first comment. -/
def dropComment : List Char → List Char
  | [] => []
  | ';' :: ';' :: _ => []
  | c :: rest => c :: dropComment rest

/-- A line without its comment and the blanks at its end. -/
def tidy (line : String) : String :=
  Text.trimEnd (String.ofList (dropComment line.toList))

/-- Whether a line goes on in the next one. -/
def goesOn (line : String) : Bool :=
  line.toList.count ')' < line.toList.count '('

/-- A line put behind the unfinished one in front of it, if there is one. -/
def joinLine (pending line : String) : String :=
  if pending.isEmpty then line else pending ++ " " ++ line

end Statement

end NormalOrder
