/-!
# Tokens

The words of the language: identifiers, the binder, four symbols, and the end of the input, which
comes after the last word.
-/

namespace NormalOrder

inductive Token.Kind
  | identifier
  | lambda
  | dot
  | lparen
  | rparen
  | equals
  /-- The end of the input. -/
  | stop
deriving DecidableEq, Repr

structure Token where
  kind : Token.Kind
  /-- The characters of the token; none for the end of the input. -/
  value : String
  /-- The number of characters in front of it. -/
  start : Nat
deriving DecidableEq, Repr

namespace Token

/-- The end of an input of `length` characters. -/
def atEnd (length : Nat) : Token := ⟨.stop, "", length⟩

def Kind.describe : Kind → String
  | identifier => "identifier"
  | lambda => "'λ'"
  | dot => "'.'"
  | lparen => "'('"
  | rparen => "')'"
  | equals => "'='"
  | stop => "end of input"

/-- Several kinds as a choice, such as `identifier or '('`. There is no choice among no kinds. -/
def Kind.describeAny? (kinds : List Kind) : Option String :=
  match kinds.reverse with
  | [] => none
  | [k] => some k.describe
  | last :: others =>
    some (String.intercalate ", " (others.reverse.map describe) ++ " or " ++ last.describe)

end Token

end NormalOrder
