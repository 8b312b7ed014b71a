import NormalOrder.Proofs.Grammar

/-!
# Progress through a statement

What can come next in a statement depends on two things: what is awaited behind the last token, and
which parentheses are open. So a statement can be followed token by token, without a look at what
comes later. Every statement of the grammar can be followed to its end.
-/

namespace NormalOrder.Statement

inductive Awaited
  /-- Nothing has come yet. -/
  | statement
  /-- The equals sign of a binding or an argument: a first identifier has come. -/
  | binding
  | term
  | param
  | dot
  /-- An argument or the end of the term. -/
  | argument
deriving DecidableEq, Repr

def Awaited.admitsTerm : Awaited → Bool
  | param => false
  | dot => false
  | _ => true

structure Progress where
  awaited : Awaited
  /-- The parentheses that are open, the innermost first. -/
  opened : List Token
deriving DecidableEq, Repr

namespace Progress

def start : Progress := ⟨.statement, []⟩

def next (p : Progress) (token : Token) : Option Progress :=
  match token.kind, p.awaited, p.opened with
  | .identifier, .statement, opened => some ⟨.binding, opened⟩
  | .identifier, .param, opened => some ⟨.dot, opened⟩
  | .identifier, .dot, _ => none
  | .identifier, _, opened => some ⟨.argument, opened⟩
  | .lambda, awaited, opened => if awaited.admitsTerm then some ⟨.param, opened⟩ else none
  | .lparen, awaited, opened => if awaited.admitsTerm then some ⟨.term, token :: opened⟩ else none
  | .rparen, .argument, _ :: opened => some ⟨.argument, opened⟩
  | .dot, .dot, opened => some ⟨.term, opened⟩
  | .equals, .binding, opened => some ⟨.term, opened⟩
  | _, _, _ => none

def walk (p : Progress) : List Token → Option Progress
  | [] => some p
  | token :: ts => (p.next token).bind fun q => q.walk ts

/-- Where a text of the given length is at fault if it ends here. Nothing is at fault if it can
end. -/
def shortfall? (p : Progress) (length : Nat) : Option Nat :=
  match p.awaited, p.opened with
  | .statement, _ => some 0
  | .binding, _ => none
  | .argument, [] => none
  | .argument, opening :: _ => some opening.start
  | _, _ => some length

/-- A term can come next, and it is not the first thing to come. -/
def Ready (p : Progress) : Prop :=
  p.awaited = .term ∨ p.awaited = .argument

section Next

variable {p : Progress} {token : Token}

theorem next_identifier (h : p.Ready) (hk : token.kind = .identifier) :
    p.next token = some ⟨.argument, p.opened⟩ := by
  rcases h with h | h <;> simp [next, hk, h]

theorem next_lambda (h : p.Ready) (hk : token.kind = .lambda) :
    p.next token = some ⟨.param, p.opened⟩ := by
  rcases h with h | h <;> simp [next, hk, h, Awaited.admitsTerm]

theorem next_lparen (h : p.Ready) (hk : token.kind = .lparen) :
    p.next token = some ⟨.term, token :: p.opened⟩ := by
  rcases h with h | h <;> simp [next, hk, h, Awaited.admitsTerm]

theorem next_param (opened : List Token) (hk : token.kind = .identifier) :
    next ⟨.param, opened⟩ token = some ⟨.dot, opened⟩ := by
  simp [next, hk]

theorem next_dot (opened : List Token) (hk : token.kind = .dot) :
    next ⟨.dot, opened⟩ token = some ⟨.term, opened⟩ := by
  simp [next, hk]

theorem next_rparen (opening : Token) (opened : List Token) (hk : token.kind = .rparen) :
    next ⟨.argument, opening :: opened⟩ token = some ⟨.argument, opened⟩ := by
  simp [next, hk]

theorem awaited_of_next_rparen {q : Progress} (hk : token.kind = .rparen)
    (h : p.next token = some q) :
    p.awaited = .argument := by
  unfold next at h
  rw [hk] at h
  split at h <;> simp_all

theorem next_term_eq_none (h : p.awaited = .term) (hk : token.kind ∉ termStart) :
    p.next token = none := by
  cases hkind : token.kind <;> simp_all [next, termStart, atomStart]

theorem next_argument_eq_none (h : p.awaited = .argument) (hk : token.kind ∉ termStart)
    (hclosing : token.kind = .rparen → p.opened = []) : p.next token = none := by
  cases hkind : token.kind <;> simp_all [next, termStart, atomStart]

theorem next_stop (p : Progress) (hk : token.kind = .stop) : p.next token = none := by
  simp [next, hk]

end Next

theorem walk_cons {p q : Progress} {token : Token} (h : p.next token = some q) (ts : List Token) :
    p.walk (token :: ts) = q.walk ts := by
  rw [walk, h, Option.bind_some]

theorem walk_append (p : Progress) (us vs : List Token) :
    p.walk (us ++ vs) = (p.walk us).bind fun q => q.walk vs := by
  induction us generalizing p with
  | nil => rfl
  | cons token us ih =>
    simp only [List.cons_append, walk]
    cases p.next token with
    | none => rfl
    | some q => exact ih q

theorem walk_append_of_eq {p q : Progress} {us : List Token} (h : p.walk us = some q)
    (vs : List Token) : p.walk (us ++ vs) = q.walk vs := by
  rw [walk_append, h, Option.bind_some]

/-- What can be followed can be followed up to any place before its end. -/
theorem exists_walk_of_append {p q : Progress} {us vs : List Token}
    (h : p.walk (us ++ vs) = some q) :
    ∃ r, p.walk us = some r ∧ r.walk vs = some q := by
  rw [walk_append] at h
  exact Option.bind_eq_some_iff.1 h

/-- A phrase leaves all parentheses as they are, and an argument can follow it. -/
theorem walk_of_derives {n : Nonterminal} {ts : List Token} {t : Term} (h : Derives n ts t)
    {p : Progress} (hp : p.Ready) : p.walk ts = some ⟨.argument, p.opened⟩ := by
  induction h generalizing p with
  | abstractionTerm _ ih => exact ih hp
  | applicationTerm _ ih => exact ih hp
  | abstraction hbinder hparam hdot _ ih =>
    rw [walk_cons (next_lambda hp hbinder), walk_cons (next_param _ hparam),
      walk_cons (next_dot _ hdot), ih (.inl rfl)]
  | atoms _ ih => exact ih hp
  | trailing _ _ ihf iha => rw [walk_append_of_eq (ihf hp), iha (.inr rfl)]
  | single _ ih => exact ih hp
  | apply _ _ ihf iha => rw [walk_append_of_eq (ihf hp), iha (.inr rfl)]
  | identifier hx =>
    rw [walk_cons (next_identifier hp hx)]
    rfl
  | enclosed hopening hclosing _ ih =>
    rw [walk_cons (next_lparen hp hopening), walk_append_of_eq (ih (.inl rfl)),
      walk_cons (next_rparen _ _ hclosing)]
    rfl

/-- Only an identifier, and only behind it an equals sign, is taken otherwise at the start of a
statement than at the start of a term. -/
theorem next_start_of_ne_identifier {token : Token} (hk : token.kind ≠ .identifier) :
    start.next token = next ⟨.term, []⟩ token := by
  cases hkind : token.kind <;> simp_all [next, start, Awaited.admitsTerm]

theorem next_start_identifier {token : Token} (hk : token.kind = .identifier) :
    start.next token = some ⟨.binding, []⟩ := by
  simp [next, start, hk]

theorem next_binding_equals {token : Token} (hk : token.kind = .equals) :
    next ⟨.binding, []⟩ token = some ⟨.term, []⟩ := by
  simp [next, hk]

theorem next_binding_of_ne_equals {token : Token} (hk : token.kind ≠ .equals) :
    next ⟨.binding, []⟩ token = next ⟨.argument, []⟩ token := by
  cases hkind : token.kind <;> simp_all [next, Awaited.admitsTerm]

theorem exists_walk_of_derivesStatement {ts : List Token} {statement : Statement}
    (h : DerivesStatement ts statement) :
    ∃ q, start.walk ts = some q ∧ ∀ length, q.shortfall? length = none := by
  cases h with
  | binding hname hequals hd =>
    refine ⟨⟨.argument, []⟩, ?_, fun _ => rfl⟩
    rw [walk_cons (next_start_identifier hname), walk_cons (next_binding_equals hequals),
      walk_of_derives hd (.inl rfl)]
  | bare hd =>
    have hwalk := walk_of_derives hd (p := ⟨.term, []⟩) (.inl rfl)
    obtain ⟨first, after, rfl, -⟩ := hd.exists_first
    by_cases hk : first.kind = .identifier
    · rw [walk_cons (next_start_identifier hk)]
      rw [walk_cons (next_identifier (.inl rfl) hk)] at hwalk
      cases after with
      | nil => exact ⟨⟨.binding, []⟩, rfl, fun _ => rfl⟩
      | cons second rest =>
        have hne : second.kind ≠ .equals := hd.kind_ne_equals second (by simp)
        refine ⟨⟨.argument, []⟩, ?_, fun _ => rfl⟩
        rw [walk, next_binding_of_ne_equals hne]
        exact hwalk
    · refine ⟨⟨.argument, []⟩, ?_, fun _ => rfl⟩
      rw [walk, next_start_of_ne_identifier hk]
      exact hwalk

end Progress

end NormalOrder.Statement
