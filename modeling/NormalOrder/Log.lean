import NormalOrder.Text.Format
import NormalOrder.Text.Layout
import NormalOrder.Text.Styled

/-!
# Logging

Log records and how they are written. Each record names its logger, which belongs to the program if
it is one of `roots` or below one of them; other records are not written. A record is written if its
level is high enough, in a format with places for its parts.
-/

namespace NormalOrder.Log

structure Record where
  logger : String
  level : Int
  message : String
deriving DecidableEq, Repr

def debug : Int := 10

def info : Int := 20

def warning : Int := 30

/-- The levels with a name of their own, and the inks of these names. -/
def levels : List (Int × String × Text.Ink) :=
  [(debug, "DEBUG", .cyan), (info, "INFO", .green), (warning, "WARNING", .yellow),
    (40, "ERROR", .red), (50, "CRITICAL", .lightRed)]

def levelName (level : Int) : String :=
  match levels.lookup level with
  | some (name, _) => name
  | none => "Level " ++ toString level

inductive Part
  | levelName
  | levelNumber
  | logger
  | message
deriving DecidableEq, Repr

inductive Piece
  | literal (c : Char)
  | part (p : Part)
deriving DecidableEq, Repr

/-- How the parts are named in a format. -/
def partNames : List (String × Part) :=
  [("%(levelname)s", .levelName), ("%(levelno)d", .levelNumber), ("%(levelno)s", .levelNumber),
    ("%(name)s", .logger), ("%(message)s", .message)]

/-- The part named at the start of `cs`, with the number of characters of its name. -/
def part? (cs : List Char) : Option (Part × Nat) :=
  (partNames.find? fun e => e.1.toList.isPrefixOf cs).map fun e => (e.2, e.1.length)

/-- Reads a format. A doubled percent sign stands for itself. -/
def pieces (cs : List Char) : List Piece :=
  match cs with
  | [] => []
  | c :: rest =>
    match part? (c :: rest) with
    | some (p, length) => .part p :: pieces (rest.drop (length - 1))
    | none =>
      if c = '%' ∧ rest.head? = some '%' then .literal '%' :: pieces rest.tail
      else .literal c :: pieces rest
termination_by cs.length
decreasing_by all_goals (simp only [List.length_cons, List.length_drop, List.length_tail]; omega)

/-- Whether a part is named somewhere in a format, even where a doubled percent sign takes the name
apart. -/
def namesPart : List Char → Bool
  | [] => false
  | c :: rest => (part? (c :: rest)).isSome || namesPart rest

/-- Reads a format, which has to name a part. An empty one stands for the message alone. -/
def format? (format : String) : Option (List Piece) :=
  if format.isEmpty then some [.part .message]
  else if namesPart format.toList then some (pieces format.toList)
  else none

def defaultFormat : List Piece :=
  pieces "%(levelname)s\t%(name)s: %(message)s".toList

structure Setup where
  level : Int := warning
  format : List Piece := defaultFormat
  /-- Whether level names are written in their inks. -/
  terminal : Bool := false

def roots : List String := ["lambda_repl", "__main__"]

def belongs (logger : String) : Bool :=
  roots.any fun r => logger = r || Text.hasStart (r ++ ".") logger

/-- The least level that is written. A setup without a level leaves it at the usual one. -/
def Setup.threshold (s : Setup) : Int :=
  if s.level = 0 then warning else s.level

def Setup.accepts (s : Setup) (r : Record) : Bool :=
  belongs r.logger && 0 < r.level && s.threshold ≤ r.level

def Piece.write (terminal : Bool) (r : Record) : Piece → Text.Styled
  | literal c => Text.plain c.toString
  | part .levelName =>
    match terminal, levels.lookup r.level with
    | true, some (name, ink) => Text.inked ink name
    | _, _ => Text.plain (levelName r.level)
  | part .levelNumber => Text.plain (toString r.level)
  | part .logger => Text.plain r.logger
  | part .message => Text.plain r.message

/-- The line written for a record, if it is written. -/
def Setup.write (s : Setup) (r : Record) : Text.Styled :=
  if s.accepts r then s.format.flatMap (Piece.write s.terminal r) ++ Text.plain "\n" else []

/-- Puts values into a message in order: `%s` takes any, `%d` a number. All of them have to be
used. -/
def interpolate : List Char → List Text.Argument → Option (List Char)
  | [], [] => some []
  | [], _ :: _ => none
  | '%' :: '%' :: rest, arguments => (interpolate rest arguments).map ('%' :: ·)
  | '%' :: 's' :: rest, a :: arguments => (interpolate rest arguments).map (a.render.toList ++ ·)
  | '%' :: 'd' :: rest, .number n :: arguments =>
    (interpolate rest arguments).map ((toString n).toList ++ ·)
  | '%' :: _, _ => none
  | c :: rest, arguments => (interpolate rest arguments).map (c :: ·)

/-- The message of a record. A message without values is taken as it is. -/
def message? (template : String) (arguments : List Text.Argument) : Option String :=
  if arguments.isEmpty then some template
  else (interpolate template.toList arguments).map String.ofList

end NormalOrder.Log
