import NormalOrder.Statement.Parser

/-!
# Equations for reading phrases

What reading each phrase does in terms of reading others, without the count of tokens that shows
that it ends.
-/

namespace NormalOrder.Statement

variable (s : Source) (ts : List Token)

theorem readTerm_term :
    readTerm s .term ts =
      if s.currentKind ts = .lambda then readTerm s .abstraction ts
      else readTerm s .application ts := by
  unfold readTerm
  rw [readPhrase]
  split <;> rfl

theorem readTerm_abstraction :
    readTerm s .abstraction ts =
      (s.expect .lambda ts).andThen fun _ ts =>
        (s.expect .identifier ts).andThen fun param ts =>
          (s.expect .dot ts).andThen fun _ ts =>
            (readTerm s .term ts).andThen fun body ts => .done (.lam param.value body) ts := by
  unfold readTerm
  rw [readPhrase]
  split
  · next h₁ => simp only [h₁, Reply.andThen]; rfl
  · next h₁ =>
    simp only [h₁, Reply.andThen]
    split
    · next h₂ => simp only [h₂]; rfl
    · next h₂ =>
      simp only [h₂]
      split
      · next h₃ => simp only [h₃]; rfl
      · next h₃ =>
        simp only [h₃]
        split <;> next h₄ => simp only [h₄]; rfl

theorem readTerm_application :
    readTerm s .application ts =
      (readTerm s .atom ts).andThen fun function ts => readTerm s (.arguments function) ts := by
  unfold readTerm
  rw [readPhrase]
  split
  · next h₁ => simp only [h₁, Reply.andThen]; rfl
  · next h₁ =>
    simp only [h₁, Reply.andThen]
    split <;> next h₂ => simp only [h₂]; rfl

theorem readTerm_arguments (function : Term) :
    readTerm s (.arguments function) ts =
      if s.currentKind ts = .lambda then
        (readTerm s .abstraction ts).andThen fun argument ts => .done (.app function argument) ts
      else if s.currentKind ts ∈ atomStart then
        (readTerm s .atom ts).andThen fun argument ts =>
          readTerm s (.arguments (.app function argument)) ts
      else .done function ts := by
  unfold readTerm
  conv => lhs; rw [readPhrase]
  split
  · split <;> next h₁ => simp only [h₁, Reply.andThen]; rfl
  · split
    · split
      · next h₁ => simp only [h₁, Reply.andThen]; rfl
      · next h₁ =>
        simp only [h₁, Reply.andThen]
        split <;> next h₂ => simp only [h₂]; rfl
    · rfl

theorem readTerm_atom_nil :
    readTerm s .atom [] = .failed (.grammar (s.violation [] termStart)) [] := by
  unfold readTerm
  rw [readPhrase]
  rfl

/-- After an opening parenthesis comes a term, and then the parenthesis that closes it. -/
def readEnclosed (opening : Token) : Reply Term :=
  if s.currentKind ts = .rparen then
    .failed (.grammar (s.violation ts termStart .emptyParentheses)) ts
  else
    (readTerm s .term ts).andThen fun t ts =>
      match ts with
      | [] => .failed (.grammar ⟨.unclosedParenthesis, opening.start, some opening, [.rparen]⟩) []
      | closing :: after =>
        if closing.kind = .rparen then
          match s.arrive after with
          | .error f => .failed (.lexical f) (closing :: after)
          | .ok rest => .done t rest
        else .failed (.grammar (s.violation (closing :: after) [.rparen])) (closing :: after)

theorem readTerm_atom_cons (first : Token) (after : List Token) :
    readTerm s .atom (first :: after) =
      match first.kind with
      | .identifier =>
        match s.arrive after with
        | .error f => .failed (.lexical f) (first :: after)
        | .ok rest => .done (.var first.value) rest
      | .lparen =>
        match s.arrive after with
        | .error f => .failed (.lexical f) (first :: after)
        | .ok ts => readEnclosed s ts first
      | .rparen =>
        .failed (.grammar (s.violation (first :: after) atomStart .strayParenthesis))
          (first :: after)
      | _ => .failed (.grammar (s.violation (first :: after) atomStart)) (first :: after) := by
  unfold readTerm
  rw [readPhrase]
  cases first.kind with
  | identifier =>
    dsimp only
    split <;> next h₁ => simp only [h₁]; rfl
  | lparen =>
    dsimp only
    split
    · next h₁ => simp only [h₁]; rfl
    · next h₁ =>
      simp only [h₁, readEnclosed]
      split
      · rfl
      · unfold readTerm
        split
        · next h₂ => simp only [h₂, Reply.andThen]; rfl
        · next h₂ =>
          simp only [h₂, Reply.andThen]
          split
          · rfl
          · split
            · next hr =>
              simp only [if_pos hr]
              split <;> next h₃ => simp only [h₃]; rfl
            · next hr => simp only [if_neg hr]; rfl
  | rparen => rfl
  | _ => rfl

end NormalOrder.Statement
