import NormalOrder.Text.Layout
import NormalOrder.Token.Basic

/-!
# Reading tokens

Blanks separate tokens and are otherwise skipped. An identifier is as long as possible: an ASCII
letter, digit or underscore, then any number of these and of primes. Reading stops at the first
character that starts no token.
-/

namespace NormalOrder

namespace Token

def isIdentifierStart (c : Char) : Bool :=
  ('a' ≤ c && c ≤ 'z') || ('A' ≤ c && c ≤ 'Z') || ('0' ≤ c && c ≤ '9') || c == '_'

def isIdentifierPart (c : Char) : Bool :=
  isIdentifierStart c || c == '\x27'

/-- The kind of a token that is one character long. The binder has two spellings. -/
def symbol? (c : Char) : Option Kind :=
  match c with
  | 'λ' => some .lambda
  | '\\' => some .lambda
  | '.' => some .dot
  | '(' => some .lparen
  | ')' => some .rparen
  | '=' => some .equals
  | _ => none

end Token

/-- A character that starts no token. -/
structure LexFault where
  char : Char
  position : Nat
deriving DecidableEq, Repr

/-- What reading a text gives: the tokens in front of its end, or of the character where it
stops. -/
structure Scan where
  tokens : List Token
  /-- The length of the text, or what stopped the reading. -/
  ending : Except LexFault Nat

namespace Scan

def cons (t : Token) (s : Scan) : Scan := { s with tokens := t :: s.tokens }

theorem length_dropWhile_le (p : Char → Bool) (cs : List Char) :
    (cs.dropWhile p).length ≤ cs.length :=
  (List.dropWhile_suffix p).length_le

/-- Reads the characters from position `pos` on. -/
def ofChars (pos : Nat) (cs : List Char) : Scan :=
  match cs with
  | [] => ⟨[], .ok pos⟩
  | c :: rest =>
    if Text.isBlank c then ofChars (pos + 1) rest
    else
      match Token.symbol? c with
      | some kind => cons ⟨kind, c.toString, pos⟩ (ofChars (pos + 1) rest)
      | none =>
        if Token.isIdentifierStart c then
          let word := c :: rest.takeWhile Token.isIdentifierPart
          cons ⟨.identifier, String.ofList word, pos⟩
            (ofChars (pos + word.length) (rest.dropWhile Token.isIdentifierPart))
        else ⟨[], .error ⟨c, pos⟩⟩
termination_by cs.length
decreasing_by
  · simp
  · simp
  · exact Nat.lt_succ_of_le (length_dropWhile_le _ _)

def ofText (text : String) : Scan :=
  ofChars 0 text.toList

/-- All tokens, the end of the input included if it is reached. -/
def all (s : Scan) : List Token :=
  match s.ending with
  | .ok length => s.tokens ++ [Token.atEnd length]
  | .error _ => s.tokens

def fault? (s : Scan) : Option LexFault :=
  match s.ending with
  | .ok _ => none
  | .error f => some f

end Scan

end NormalOrder
