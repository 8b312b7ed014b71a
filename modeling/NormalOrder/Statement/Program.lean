import NormalOrder.Statement.Parser

/-!
# Programs

A program is a sequence of lines, and its statements are the lines joined with those that they go on
in. Every statement has the number of its first line. Blank lines and comments are statements as
well, which do nothing.
-/

namespace NormalOrder.Statement

/-- A statement as it is written, with the number of its first line. -/
structure Numbered where
  text : String
  number : Nat
deriving DecidableEq, Repr

/-- The statements of the lines from number `n` on, behind an unfinished one. If the last one is not
finished, it is a statement as it stands. -/
def collect (pending : Option Numbered) (n : Nat) : List String → List Numbered
  | [] => pending.toList
  | line :: rest =>
    let text := tidy (joinLine ((pending.map (·.text)).getD "") line)
    let numbered : Numbered := ⟨text, (pending.map (·.number)).getD n⟩
    if goesOn text then collect (some numbered) (n + 1) rest
    else numbered :: collect none (n + 1) rest

def statements (lines : List String) : List Numbered :=
  collect none 1 lines

/-- The bindings among the statements, in order. -/
def bindings (lines : List String) : List (String × Term) :=
  (statements lines).filterMap fun s =>
    match parse s.text with
    | .ok (.bind name t) => some (name, t)
    | _ => none

end NormalOrder.Statement
