import NormalOrder.Diagnostic
import NormalOrder.Token.Lexer

/-!
# Faults of statements

Why a text is no statement: a character that starts no token, or a violation of the grammar, with
the token at which it shows and the kinds of token that could have stood there.
-/

namespace NormalOrder

namespace Statement

inductive Reason
  /-- A token that cannot stand where it does, or the end of the input too early. -/
  | unexpected
  | strayParenthesis
  | unclosedParenthesis
  | emptyParentheses
  | misplacedEquals
  | emptyStatement
  | emptyBinding
  /-- A binding where a term was asked for. -/
  | notATerm
deriving DecidableEq, Repr

structure Violation where
  reason : Reason
  position : Nat
  found : Option Token
  expected : List Token.Kind
deriving DecidableEq, Repr

inductive Fault
  | lexical (fault : LexFault)
  | grammar (violation : Violation)
deriving DecidableEq, Repr

namespace Violation

def foundText (v : Violation) : String :=
  (v.found.map Token.value).getD ""

/-- What is said about a violation in the statement `text`. -/
def message (v : Violation) (text : String) : Text.Styled :=
  let expected := ", expected " ++ (Token.Kind.describeAny? v.expected).getD ""
  match v.reason with
  | .unexpected =>
    if v.found.map Token.kind = some .stop then
      Text.quoted text ++ Text.plain (" ended unexpectedly" ++ expected)
    else
      Text.quoted text ++ Text.plain " has unexpected " ++ Text.quoted v.foundText ++
        Text.plain expected
  | .strayParenthesis =>
    Text.quoted text ++ Text.plain " has mismatched parentheses: stray " ++ Text.quoted v.foundText
  | .unclosedParenthesis =>
    Text.quoted text ++ Text.plain " has mismatched parentheses: unclosed '('"
  | .emptyParentheses => Text.quoted text ++ Text.plain " has empty parentheses"
  | .misplacedEquals =>
    Text.quoted text ++ Text.plain " has misplaced " ++ Text.quoted v.foundText ++
      Text.plain ": bindings must have the form NAME = λ-term"
  | .emptyStatement => Text.plain "λ-term cannot be empty"
  | .emptyBinding => Text.plain "binding " ++ Text.quoted text ++ Text.plain " has no λ-term"
  | .notATerm => Text.quoted text ++ Text.plain " is a binding, expected a λ-term"

def diagnostic (v : Violation) (text : String) : Diagnostic :=
  .violation (v.message text) text v.position v.found v.expected

end Violation

def Fault.diagnostic (text : String) : Fault → Diagnostic
  | lexical f => .unrecognized text f.char.toString f.position
  | grammar v => v.diagnostic text

end Statement

end NormalOrder
