import NormalOrder.Diagnostic
import NormalOrder.Text.Digit
import NormalOrder.Text.Template
import NormalOrder.Text.Utf8

/-!
# Failures

How an action can end early. Mistakes of the user are diagnostics. Anything the program is not
prepared for is a breakdown, with the kind and the message under which it is reported.

The depth of the stack is not modelled. A reporter that stands guard can be given a failure of a
reduction that went too deep, and tells it in its own words, but no action of a session or of the
shell fails so.
-/

namespace NormalOrder

inductive Breakdown
  /-- Digits that cannot be read as a number. -/
  | numeral (fault : Text.NumeralFault)
  /-- A file that is not text. -/
  | undecodable (fault : Text.Utf8.Fault)
  /-- A message template that cannot be filled. -/
  | template (fault : Text.Template.Fault)
  /-- A diagnostic that is about no expression. -/
  | noExpression
  /-- No result is pending. -/
  | noResult
  /-- A limit on steps without a value. -/
  | blankLimit
  /-- A file to load without a name. -/
  | blankPath
  /-- A path with a character that no path can have. -/
  | nullCharacter
  | other (kind message : String)
deriving DecidableEq, Repr

namespace Breakdown

def kind : Breakdown → String
  | numeral _ => "ValueError"
  | undecodable _ => "UnicodeDecodeError"
  | template f => f.kind
  | noExpression => "IndexError"
  | noResult => "IndexError"
  | blankLimit => "TypeError"
  | blankPath => "TypeError"
  | nullCharacter => "ValueError"
  | other kind _ => kind

def message : Breakdown → String
  | numeral f => f.message
  | undecodable f => f.message
  | template f => f.message
  | noExpression => "list index out of range"
  | noResult => "pop from empty list"
  | blankLimit => "'>=' not supported between instances of 'int' and 'list'"
  | blankPath => "unhashable type: 'list'"
  | nullCharacter => "embedded null byte"
  | other _ message => message

end Breakdown

inductive Failure
  | reported (diagnostic : Diagnostic)
  | interrupted
  /-- The program is to end with this code. -/
  | exit (code : Int)
  /-- A term is nested too deeply. -/
  | tooDeep
  | breakdown (cause : Breakdown)
  /-- A reduction without a limit has outlasted the patience given to it. -/
  | stalled
deriving DecidableEq, Repr

section Templates

variable {ω : Type} (objects : Text.Template.Objects ω) (paint : Text.Span → String)

/-- The diagnostic whose message fills a template with expressions that have been painted. The first
expression is the one at fault. What is said is the template filled with the expressions as they
are. -/
def Diagnostic.ofTemplate (template : String) (exprs : List Text.Argument) (start stop : Int)
    (diagnosis internal : Bool) : Except Breakdown Diagnostic :=
  let painted := exprs.map fun e => Text.Argument.text (paint ⟨e.render, .bold⟩)
  match Text.Template.fill objects painted template, exprs with
  | .error fault, _ => .error (.template fault)
  | .ok _, [] => .error .noExpression
  | .ok message, expr :: _ =>
    match Text.Template.fill objects exprs template with
    | .error fault => .error (.template fault)
    | .ok said =>
      .ok
        { message := Text.plain message
          said
          expr := expr.render
          start
          stop := spanStop expr.render stop
          diagnosis
          internal }

/-- The diagnostic of a violation of the grammar in words of one's own: the template's first
expression is the statement and its second one the token found. -/
def Diagnostic.violationOfTemplate (template expr : String) (position : Int) (found : Option Token)
    (expected : List Token.Kind) : Except Breakdown Diagnostic :=
  let width := max 1 ((found.map (·.value.length)).getD 1)
  let value := (found.map Token.value).getD ""
  (ofTemplate objects paint template [.text expr, .text value] position (position + width) true
    false).map fun d => { d with origin := .grammar position found expected }

end Templates

/-- How a failure is told to the user, if it is. -/
def Failure.diagnostic? : Failure → Option Diagnostic
  | reported d => some d
  | interrupted => some (.remark (Text.plain "keyboard interrupt"))
  | tooDeep =>
    some (.remark (Text.plain "normal form might exist, but maximum recursion depth exceeded"))
  | breakdown cause =>
    let what := cause.kind ++ ": " ++ cause.message
    some
      { message := Text.plain "unknown error: " ++ Text.quoted what
        expr := what
        stop := what.length
        internal := true }
  | exit _ => none
  | stalled => none

/-- Whether a failure goes on after it has been told. -/
def Failure.persists : Failure → Bool
  | exit _ => true
  | breakdown _ => true
  | stalled => true
  | _ => false

end NormalOrder
