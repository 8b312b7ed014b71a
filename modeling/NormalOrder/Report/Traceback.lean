import NormalOrder.Diagnostic
import NormalOrder.Roster

/-!
# Tracebacks

The files being run, outermost first, each with the line being run in it, if there is one. A report
starts with the innermost line, or with all of them when there are several.
-/

namespace NormalOrder

/-- A line of a file. -/
structure Traceback.Entry where
  line : String
  number : Int
deriving DecidableEq, Repr

abbrev Traceback := Roster (Option Traceback.Entry)

namespace Traceback

/-- Forgets the lines and keeps the files. -/
def clearLines (tb : Traceback) : Traceback :=
  tb.mapValues fun _ => none

/-- File and number of the innermost line. -/
def location (tb : Traceback) : Text.Styled :=
  match tb.entries.reverse.findSome? fun e => e.2.map (e.1, ·) with
  | some (file, entry) => Text.bold (file ++ ":" ++ toString entry.number ++ ": ")
  | none => []

/-- The lines that are not empty, outermost first. -/
def shownLines (tb : Traceback) : List (String × Entry) :=
  tb.entries.filterMap fun e =>
    match e.2 with
    | some entry => if entry.line.isEmpty then none else some (e.1, entry)
    | none => none

def heading (tb : Traceback) : Text.Styled :=
  let shown := tb.shownLines
  if 1 < shown.length then
    Text.plain ("Traceback:\n" ++ String.join (shown.map fun e =>
      "  File '" ++ e.1 ++ "', line " ++ toString e.2.number ++ ":\n    " ++ e.2.line ++ "\n"))
  else tb.location

/-- The message line, then the expression at fault if it is shown. -/
def body (d : Diagnostic) (label : String) (ink : Text.Ink) : Text.Styled :=
  Text.inked ink label ++ d.message ++ Text.plain "\n" ++
    (if d.showsExpr then d.underlined ink ++ Text.plain "\n" else [])

def warning (tb : Traceback) (d : Diagnostic) : Text.Styled :=
  tb.location ++ body d "warning: " .magenta

def error (tb : Traceback) (d : Diagnostic) : Text.Styled :=
  tb.heading ++ (if d.internal then Text.inked .red "[internal] " else []) ++
    body d "error: " .red

end Traceback

end NormalOrder
