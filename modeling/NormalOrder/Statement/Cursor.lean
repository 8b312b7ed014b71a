import NormalOrder.Failure
import NormalOrder.Statement.Fault

/-!
# Walking through tokens

A source is the text of a statement with the way its tokens end. A place in it is the list of tokens
from there on: the first of them is the current one, and the end of the input is current when none
is left. A character that starts no token is found out when the walk would arrive there, not before.
-/

namespace NormalOrder.Statement

structure Source where
  text : String
  ending : Except LexFault Nat

namespace Source

/-- The end of the input; it is not met in a source that ends with a fault. -/
def finalToken (s : Source) : Token :=
  match s.ending with
  | .ok length => .atEnd length
  | .error f => .atEnd f.position

theorem kind_finalToken (s : Source) : s.finalToken.kind = .stop := by
  unfold finalToken
  split <;> rfl

def current (s : Source) : List Token → Token
  | [] => s.finalToken
  | t :: _ => t

def currentKind (s : Source) (ts : List Token) : Token.Kind :=
  (s.current ts).kind

/-- The place of what comes first, which has to be a token or the end. -/
def arrive (s : Source) (ts : List Token) : Except LexFault (List Token) :=
  match ts, s.ending with
  | [], .error f => .error f
  | ts, _ => .ok ts

/-- The place after the current token. There is nothing after the end of the input. -/
def advance (s : Source) : List Token → Except LexFault (List Token)
  | [] => .ok []
  | _ :: rest => s.arrive rest

/-- The token after the current one. -/
def peek (s : Source) (ts : List Token) : Except LexFault Token :=
  (s.advance ts).map s.current

theorem length_of_arrive {s : Source} {ts rest : List Token} (h : s.arrive ts = .ok rest) :
    rest.length = ts.length := by
  unfold arrive at h
  split at h <;> cases h
  rfl

theorem length_of_advance {s : Source} {t : Token} {ts rest : List Token}
    (h : s.advance (t :: ts) = .ok rest) : rest.length = ts.length :=
  length_of_arrive h

/-- The violation that the current token is, for the given reason. -/
def violation (s : Source) (ts : List Token) (expected : List Token.Kind)
    (reason : Reason := .unexpected) : Violation :=
  ⟨reason, (s.current ts).start, some (s.current ts), expected⟩

/-- The diagnostic of such a violation in words of one's own. -/
def violationIn {ω : Type} (objects : Text.Template.Objects ω) (paint : Text.Span → String)
    (s : Source) (ts : List Token) (expected : List Token.Kind) (template : String) :
    Except Breakdown Diagnostic :=
  Diagnostic.violationOfTemplate objects paint template s.text (s.current ts).start
    (some (s.current ts))
    expected

end Source

/-- What reading at a place gives, with the place it ends at: on failure, the place of the fault. -/
inductive Reply (α : Type)
  | done (value : α) (rest : List Token)
  | failed (fault : Fault) (rest : List Token)

/-- Goes on after what was read, unless reading failed. -/
def Reply.andThen {α β : Type} (r : Reply α) (next : α → List Token → Reply β) : Reply β :=
  match r with
  | done a rest => next a rest
  | failed fault here => failed fault here

namespace Source

/-- Reads the current token, which has to be of the given kind. -/
def expect (s : Source) (kind : Token.Kind) (ts : List Token) : Reply Token :=
  if s.currentKind ts = kind then
    match s.advance ts with
    | .ok rest => .done (s.current ts) rest
    | .error f => .failed (.lexical f) ts
  else .failed (.grammar (s.violation ts [kind])) ts

theorem length_of_expect {s : Source} {kind : Token.Kind} {ts rest : List Token} {t : Token}
    (hkind : kind ≠ .stop) (h : s.expect kind ts = .done t rest) : rest.length < ts.length := by
  unfold expect at h
  split at h
  · next hk =>
    cases ts with
    | nil => exact absurd (hk.symm.trans s.kind_finalToken) hkind
    | cons u us =>
      split at h
      · next hadv =>
        cases h
        rw [length_of_advance hadv]
        exact Nat.lt_succ_self _
      · cases h
  · cases h

end Source

/-- A place in a source. -/
structure Cursor where
  source : Source
  tokens : List Token

namespace Cursor

/-- The first token of a text. -/
def ofText (text : String) : Except LexFault Cursor :=
  let scan := Scan.ofText text
  let source : Source := ⟨text, scan.ending⟩
  (source.arrive scan.tokens).map (⟨source, ·⟩)

def current (c : Cursor) : Token :=
  c.source.current c.tokens

end Cursor

end NormalOrder.Statement
