import NormalOrder.Text.Slice
import NormalOrder.Text.Styled
import NormalOrder.Token.Basic

/-!
# Diagnostics

What a user is told about a mistake or a problem: a message, and the expression at fault with the
span in it to point at. Under the expression the span is marked with a caret and tildes.
-/

namespace NormalOrder

/-- What kind of mistake a diagnostic is about, with the details that its message and span show. -/
inductive Diagnostic.Origin
  | general
  /-- A character that starts no token. -/
  | character (char : String) (position : Int)
  /-- A violation of the grammar: the token met there, if it is about one, and what could have stood
  there instead. -/
  | grammar (position : Int) (found : Option Token) (expected : List Token.Kind)
deriving DecidableEq, Repr

structure Diagnostic where
  message : Text.Styled
  /-- The message without its looks. -/
  said : String := message.content
  /-- The expression at fault. -/
  expr : String := ""
  start : Int := 0
  /-- The end of the span; the character there is not part of it. -/
  stop : Int
  /-- Whether the expression is shown under the message. -/
  diagnosis : Bool := true
  /-- Whether the fault is the program's own. -/
  internal : Bool := false
  origin : Diagnostic.Origin := .general
deriving DecidableEq, Repr

namespace Diagnostic

/-- The end of a span given as `stop`: -1 stands for the end of the expression. -/
def spanStop (expr : String) (stop : Int) : Int :=
  if stop = -1 then expr.length else stop

/-- A message on its own, which shows no expression. -/
def remark (message : Text.Styled) (expr : String := "") : Diagnostic where
  message
  expr
  stop := expr.length
  diagnosis := false

def unrecognized (expr char : String) (position : Int) : Diagnostic where
  message := Text.quoted expr ++ Text.plain " contains unrecognized character " ++ Text.quoted char
  expr
  start := position
  stop := spanStop expr (position + 1)
  origin := .character char position

/-- The span is as wide as the token found, or one character if there is none. -/
def violation (message : Text.Styled) (expr : String) (position : Int) (found : Option Token)
    (expected : List Token.Kind) : Diagnostic where
  message
  expr
  start := position
  stop := spanStop expr (position + max 1 ((found.map (·.value.length)).getD 1))
  origin := .grammar position found expected

/-- Where the marked span ends: at least one character is marked. -/
def markStop (d : Diagnostic) : Int :=
  max d.stop (d.start + 1)

def repeated (n : Int) (c : Char) : String :=
  String.ofList (List.replicate n.toNat c)

/-- The expression with its span in `ink`, and the mark under it on a second line. -/
def underlined (d : Diagnostic) (ink : Text.Ink) : Text.Styled :=
  Text.plain ("  " ++ Text.sliceTo d.expr d.start) ++
    Text.inked ink (Text.slice d.expr d.start d.markStop) ++
    Text.plain (Text.sliceFrom d.expr d.markStop ++ "\n  " ++ repeated d.start ' ') ++
    Text.inked ink ("^" ++ repeated (d.markStop - d.start - 1) '~')

/-- Whether the expression is shown: an empty one never is, nor one that the program itself is to
blame for. -/
def showsExpr (d : Diagnostic) : Bool :=
  !d.internal && !d.expr.isEmpty && d.diagnosis

end Diagnostic

end NormalOrder
