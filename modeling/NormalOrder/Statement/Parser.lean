import NormalOrder.Statement.Basic
import NormalOrder.Statement.Cursor

/-!
# Reading statements

```
statement   ::= identifier "=" term | term
term        ::= abstraction | application
abstraction ::= "λ" identifier "." term
application ::= atom+ [abstraction]
atom        ::= identifier | "(" term ")"
```

The body of an abstraction reaches as far as it can, and application groups to the left. One
function reads every phrase of the grammar. It ends because a phrase that is read leaves fewer
tokens, which is part of its result.

No stack of open parentheses is kept. Whatever reads a parenthesised term holds the place of its own
parenthesis. If the text ends before it is closed, those inside have all been closed, and its own is
the one that would be on top of a stack.
-/

namespace NormalOrder.Statement

/-- What is to be read. -/
inductive Phrase
  | term
  | abstraction
  | application
  | atom
  /-- The arguments that follow a function, if there are any. -/
  | arguments (function : Term)

namespace Phrase

/-- How far a phrase is from consuming a token itself. -/
def rank : Phrase → Nat
  | atom => 0
  | abstraction => 0
  | arguments _ => 1
  | application => 1
  | term => 2

/-- The fewest tokens that a phrase takes. -/
def least : Phrase → Nat
  | arguments _ => 0
  | _ => 1

end Phrase

def atomStart : List Token.Kind := [.identifier, .lparen]

def termStart : List Token.Kind := .lambda :: atomStart

/-- The result of reading `phrase` at `ts`: if a term is read, enough tokens are used up. -/
abbrev Reading (phrase : Phrase) (ts : List Token) : Type :=
  { r : Reply Term // ∀ t rest, r = .done t rest → rest.length + phrase.least ≤ ts.length }

def Reading.fail {phrase : Phrase} {ts : List Token} (fault : Fault) (here : List Token) :
    Reading phrase ts :=
  ⟨.failed fault here, fun _ _ h => nomatch h⟩

def Reading.done {phrase : Phrase} {ts : List Token} (t : Term) (rest : List Token)
    (h : rest.length + phrase.least ≤ ts.length) : Reading phrase ts :=
  ⟨.done t rest, fun _ _ e => by cases e; exact h⟩

/-- Reads a phrase at `ts`. -/
def readPhrase (s : Source) (phrase : Phrase) (ts : List Token) : Reading phrase ts :=
  match phrase with
  | .term =>
    if s.currentKind ts = .lambda then
      match readPhrase s .abstraction ts with
      | ⟨r, h⟩ => ⟨r, h⟩
    else
      match readPhrase s .application ts with
      | ⟨r, h⟩ => ⟨r, h⟩
  | .abstraction =>
    match h₁ : s.expect .lambda ts with
    | .failed fault here => .fail fault here
    | .done _ ts₁ =>
      match h₂ : s.expect .identifier ts₁ with
      | .failed fault here => .fail fault here
      | .done param ts₂ =>
        match h₃ : s.expect .dot ts₂ with
        | .failed fault here => .fail fault here
        | .done _ ts₃ =>
          have := Source.length_of_expect (by decide) h₁
          have := Source.length_of_expect (by decide) h₂
          have := Source.length_of_expect (by decide) h₃
          match readPhrase s .term ts₃ with
          | ⟨.failed fault here, _⟩ => .fail fault here
          | ⟨.done body rest, h⟩ =>
            .done (.lam param.value body) rest (by
              have := h _ _ rfl
              simp only [Phrase.least] at this ⊢
              omega)
  | .application =>
    match readPhrase s .atom ts with
    | ⟨.failed fault here, _⟩ => .fail fault here
    | ⟨.done function ts₁, h₁⟩ =>
      have h₁ := h₁ _ _ rfl
      match readPhrase s (.arguments function) ts₁ with
      | ⟨.failed fault here, _⟩ => .fail fault here
      | ⟨.done t rest, h⟩ =>
        .done t rest (by
          have := h _ _ rfl
          simp only [Phrase.least] at this h₁ ⊢
          omega)
  | .arguments function =>
    if s.currentKind ts = .lambda then
      match readPhrase s .abstraction ts with
      | ⟨.failed fault here, _⟩ => .fail fault here
      | ⟨.done argument rest, h⟩ =>
        .done (.app function argument) rest (by
          have := h _ _ rfl
          simp only [Phrase.least] at this ⊢
          omega)
    else if s.currentKind ts ∈ atomStart then
      match readPhrase s .atom ts with
      | ⟨.failed fault here, _⟩ => .fail fault here
      | ⟨.done argument ts₁, h₁⟩ =>
        have h₁ := h₁ _ _ rfl
        match readPhrase s (.arguments (.app function argument)) ts₁ with
        | ⟨.failed fault here, _⟩ => .fail fault here
        | ⟨.done t rest, h⟩ =>
          .done t rest (by
            have := h _ _ rfl
            simp only [Phrase.least] at this h₁ ⊢
            omega)
    else .done function ts (Nat.le_refl _)
  | .atom =>
    match ts with
    | [] => .fail (.grammar (s.violation [] termStart)) []
    | first :: after =>
      match first.kind with
      | .identifier =>
        match h₁ : s.arrive after with
        | .error f => .fail (.lexical f) (first :: after)
        | .ok rest =>
          .done (.var first.value) rest (by
            rw [Source.length_of_arrive h₁]
            exact Nat.le_refl _)
      | .lparen =>
        match h₁ : s.arrive after with
        | .error f => .fail (.lexical f) (first :: after)
        | .ok ts₁ =>
          have h₁ := Source.length_of_arrive h₁
          if s.currentKind ts₁ = .rparen then
            .fail (.grammar (s.violation ts₁ termStart .emptyParentheses)) ts₁
          else
            match readPhrase s .term ts₁ with
            | ⟨.failed fault here, _⟩ => .fail fault here
            | ⟨.done t ts₂, h₂⟩ =>
              have h₂ := h₂ _ _ rfl
              match ts₂ with
              | [] =>
                .fail
                  (.grammar ⟨.unclosedParenthesis, first.start, some first, [.rparen]⟩) []
              | next :: after₂ =>
                if next.kind = .rparen then
                  match h₃ : s.arrive after₂ with
                  | .error f => .fail (.lexical f) (next :: after₂)
                  | .ok rest =>
                    .done t rest (by
                      rw [Source.length_of_arrive h₃]
                      simp only [Phrase.least, List.length_cons] at h₂ ⊢
                      omega)
                else .fail (.grammar (s.violation (next :: after₂) [.rparen])) (next :: after₂)
      | .rparen =>
        .fail (.grammar (s.violation (first :: after) atomStart .strayParenthesis))
          (first :: after)
      | _ => .fail (.grammar (s.violation (first :: after) atomStart)) (first :: after)
termination_by 3 * ts.length + phrase.rank
decreasing_by all_goals simp_wf; simp_all [Phrase.rank, Phrase.least]; try omega

/-- Reads a phrase at `ts`. -/
def readTerm (s : Source) (phrase : Phrase) (ts : List Token) : Reply Term :=
  (readPhrase s phrase ts).1

/-- Checks that nothing is left. -/
def finish (s : Source) (ts : List Token) : Reply Unit :=
  match s.currentKind ts with
  | .stop => .done () ts
  | .rparen => .failed (.grammar (s.violation ts [.stop] .strayParenthesis)) ts
  | .equals => .failed (.grammar (s.violation ts [.stop] .misplacedEquals)) ts
  | _ => .failed (.grammar (s.violation ts [.stop])) ts

/-- Reads the term of a statement and checks that nothing is left after it. -/
def readLast (s : Source) (make : Term → Statement) (ts : List Token) : Reply Statement :=
  (readTerm s .term ts).andThen fun t rest =>
    (finish s rest).andThen fun _ rest => .done (make t) rest

/-- Reads a statement up to the end. An identifier followed by an equals sign starts a binding,
whatever follows. -/
def readStatement (s : Source) (ts : List Token) : Reply Statement :=
  match ts with
  | [] => .failed (.grammar ⟨.emptyStatement, 0, none, termStart⟩) []
  | first :: after =>
    if first.kind = .identifier then
      match s.arrive after with
      | .error f => .failed (.lexical f) (first :: after)
      | .ok ts₁ =>
        if s.currentKind ts₁ = .equals then
          match s.advance ts₁ with
          | .error f => .failed (.lexical f) ts₁
          | .ok ts₂ =>
            if s.currentKind ts₂ = .stop then
              .failed (.grammar (s.violation ts₂ termStart .emptyBinding)) ts₂
            else readLast s (.bind first.value) ts₂
        else readLast s .bare (first :: after)
    else readLast s .bare (first :: after)

/-- Reads a text as one statement. -/
def parse (text : String) : Except Fault Statement :=
  match Cursor.ofText text with
  | .error f => .error (.lexical f)
  | .ok c =>
    match readStatement c.source c.tokens with
    | .done statement _ => .ok statement
    | .failed fault _ => .error fault

/-- Reads a text as a term; a binding is refused at its equals sign. -/
def parseTerm (text : String) : Except Fault Term :=
  match parse text with
  | .error fault => .error fault
  | .ok (.bare t) => .ok t
  | .ok (.bind _ _) =>
    .error (.grammar ⟨.notATerm, (text.toList.takeWhile (· ≠ '=')).length, none, [.stop]⟩)

end NormalOrder.Statement
