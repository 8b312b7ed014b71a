import Mathlib.Data.List.Basic
import NormalOrder.Proofs.Grammar.Obstacles
import NormalOrder.Proofs.Scanning

/-!
# Faults are found where a text can no longer become a statement

Tokens are viable if a statement starts with them. The tokens that can be followed one by one are
the viable ones, since what is missing can be added from every point of the way. Where a text has a
fault can thus be said in terms of the grammar alone.
-/

namespace NormalOrder.Statement

def Viable (ts : List Token) : Prop :=
  ∃ rest statement, DerivesStatement (ts ++ rest) statement

/-- Tokens that closing parentheses complete to a statement. -/
def Closable (ts : List Token) : Prop :=
  ∃ closings statement, (∀ token ∈ closings, token.kind = .rparen) ∧
    DerivesStatement (ts ++ closings) statement

def openAfter (opened : List Token) (token : Token) : List Token :=
  match token.kind with
  | .lparen => token :: opened
  | .rparen => opened.tail
  | _ => opened

/-- The parentheses that are opened and not closed, the innermost first. -/
def unclosed (ts : List Token) : List Token :=
  ts.foldl openAfter []

theorem Viable.of_append {ts us : List Token} (h : Viable (ts ++ us)) : Viable ts := by
  obtain ⟨rest, statement, hd⟩ := h
  refine ⟨us ++ rest, statement, ?_⟩
  rw [← List.append_assoc]
  exact hd

theorem Viable.of_isPrefix {ts us : List Token} (h : Viable us) (hts : ts <+: us) : Viable ts := by
  obtain ⟨rest, rfl⟩ := hts
  exact h.of_append

namespace Progress

variable {p q : Progress} {token : Token} {ts : List Token}

/-- What one token does to the progress: it is no end of the input, it opens or closes a parenthesis
or neither, and something has come. -/
theorem of_next (h : p.next token = some q) :
    token.kind ≠ .stop ∧ q.opened = openAfter p.opened token ∧ q.awaited ≠ .statement := by
  obtain ⟨awaited, opened⟩ := p
  cases hkind : token.kind <;> cases awaited <;> cases opened <;>
    simp [next, hkind, Awaited.admitsTerm] at h <;> subst h <;> simp [openAfter, hkind]

theorem kind_ne_stop_of_walk (h : p.walk ts = some q) : ∀ token ∈ ts, token.kind ≠ .stop := by
  induction ts generalizing p with
  | nil => simp
  | cons token ts ih =>
    obtain ⟨r, hr, hq⟩ := Option.bind_eq_some_iff.1 h
    exact List.forall_mem_cons.2 ⟨(of_next hr).1, ih hq⟩

theorem opened_of_walk (h : p.walk ts = some q) : q.opened = ts.foldl openAfter p.opened := by
  induction ts generalizing p with
  | nil =>
    cases h
    rfl
  | cons token ts ih =>
    obtain ⟨r, hr, hq⟩ := Option.bind_eq_some_iff.1 h
    rw [ih hq, (of_next hr).2.1, List.foldl_cons]

theorem awaited_of_walk (h : p.walk ts = some q) (hp : p.awaited ≠ .statement) :
    q.awaited ≠ .statement := by
  induction ts generalizing p with
  | nil =>
    cases h
    exact hp
  | cons token ts ih =>
    obtain ⟨r, hr, hq⟩ := Option.bind_eq_some_iff.1 h
    exact ih hq (of_next hr).2.2

theorem eq_nil_of_walk_start (h : start.walk ts = some q) (hq : q.awaited = .statement) :
    ts = [] := by
  cases ts with
  | nil => rfl
  | cons token ts =>
    obtain ⟨r, hr, hwalk⟩ := Option.bind_eq_some_iff.1 h
    exact absurd hq (awaited_of_walk hwalk (of_next hr).2.2)

/-- One closing parenthesis for each open one leads to the end of the outermost term. -/
theorem walk_closings {closing : Token} (hclosing : closing.kind = .rparen) (opened : List Token) :
    walk ⟨.argument, opened⟩ (opened.map fun _ => closing) = some ⟨.argument, []⟩ := by
  induction opened with
  | nil => rfl
  | cons opening opened ih =>
    rw [List.map_cons, walk_cons (next_rparen opening opened hclosing), ih]

def Completes (p : Progress) : Prop :=
  ∃ rest q, p.walk rest = some q ∧ q.shortfall? 0 = none

theorem Completes.of_next (h : p.next token = some q) (hq : q.Completes) : p.Completes := by
  obtain ⟨rest, r, hr, hend⟩ := hq
  exact ⟨token :: rest, r, (walk_cons h rest).trans hr, hend⟩

/-- From every point of the way the statement can be completed. -/
theorem completes (p : Progress) : p.Completes := by
  have hidentifier : (Token.mk .identifier "x" 0).kind = .identifier := rfl
  have hclosing : (Token.mk .rparen ")" 0).kind = .rparen := rfl
  have hargument : ∀ opened, Completes ⟨.argument, opened⟩ := fun opened =>
    ⟨_, _, walk_closings hclosing opened, rfl⟩
  have hterm : ∀ opened, Completes ⟨.term, opened⟩ := fun opened =>
    (hargument opened).of_next (next_identifier (.inl rfl) hidentifier)
  have hdot : ∀ opened, Completes ⟨.dot, opened⟩ := by
    intro opened
    have hkind : (Token.mk .dot "." 0).kind = .dot := rfl
    exact (hterm opened).of_next (next_dot opened hkind)
  obtain ⟨awaited, opened⟩ := p
  cases awaited with
  | statement =>
    have hbinding : Completes ⟨.binding, opened⟩ := ⟨[], _, rfl, rfl⟩
    have hnext : next ⟨.statement, opened⟩ ⟨.identifier, "x", 0⟩ = some ⟨.binding, opened⟩ := rfl
    exact hbinding.of_next hnext
  | binding => exact ⟨[], _, rfl, rfl⟩
  | term => exact hterm opened
  | param => exact (hdot opened).of_next (next_param opened hidentifier)
  | dot => exact hdot opened
  | argument => exact hargument opened

end Progress

section Viability

variable {ts : List Token} {q : Progress}

/-- If all tokens can be followed, a violation of the grammar is found at the end of the text
only. -/
theorem Source.StopsAt.shortfall {s : Source} {p : Progress} {here : List Token} {v : Violation}
    (h : s.StopsAt p ts here (.grammar v)) (hwalk : p.walk ts = some q) :
    ∃ length, s.ending = .ok length ∧ q.shortfall? length = some v.position := by
  obtain ⟨us, r, rfl, hr, hrefuses⟩ := h
  rw [Progress.walk_append_of_eq hr] at hwalk
  cases here with
  | nil =>
    cases hwalk
    exact hrefuses
  | cons token after =>
    rw [Progress.walk, hrefuses.1] at hwalk
    cases hwalk

/-- Tokens that can be followed to a point where a statement can end are a statement. -/
theorem exists_derivesStatement_of_walk (h : Progress.start.walk ts = some q)
    (hend : q.shortfall? 0 = none) : ∃ statement, DerivesStatement ts statement := by
  let s : Source := ⟨"", .ok 0⟩
  have hts : s.arrive ts = .ok ts := Source.arrive_of_ending rfl ts
  cases hread : readStatement s ts with
  | done statement rest =>
    exact ⟨statement, (derives_of_readStatement hts (Progress.kind_ne_stop_of_walk h) hread).2⟩
  | failed fault here =>
    have hstops := stopsAt_readStatement hts hread
    cases fault with
    | lexical f => cases hstops.1
    | grammar v =>
      obtain ⟨length, hlength, hshort⟩ := hstops.shortfall h
      cases hlength
      cases hend.symm.trans hshort

/-- The viable tokens are those that can be followed. -/
theorem viable_iff : Viable ts ↔ ∃ q, Progress.start.walk ts = some q := by
  constructor
  · rintro ⟨rest, statement, hd⟩
    obtain ⟨r, hr, -⟩ := Progress.exists_walk_of_derivesStatement hd
    obtain ⟨q, hq, -⟩ := Progress.exists_walk_of_append hr
    exact ⟨q, hq⟩
  · rintro ⟨q, hq⟩
    obtain ⟨rest, r, hr, hend⟩ := q.completes
    rw [← Progress.walk_append_of_eq hq] at hr
    obtain ⟨statement, hd⟩ := exists_derivesStatement_of_walk hr hend
    exact ⟨rest, statement, hd⟩

/-- Only the end of a term within open parentheses can be completed by closing them. -/
theorem Closable.awaited_eq_argument {position length : Nat} (h : Closable ts)
    (hwalk : Progress.start.walk ts = some q) (hshort : q.shortfall? length = some position) :
    q.awaited = .argument := by
  obtain ⟨closings, statement, hclosings, hd⟩ := h
  obtain ⟨r, hr, hend⟩ := Progress.exists_walk_of_derivesStatement hd
  rw [Progress.walk_append_of_eq hwalk] at hr
  cases closings with
  | nil =>
    cases hr
    cases (hend length).symm.trans hshort
  | cons closing closings =>
    have hclosing := hclosings closing List.mem_cons_self
    obtain ⟨r', hr', -⟩ := Option.bind_eq_some_iff.1 hr
    exact Progress.awaited_of_next_rparen hclosing hr'

theorem closable_of_walk {opened : List Token}
    (hwalk : Progress.start.walk ts = some ⟨.argument, opened⟩) : Closable ts := by
  have hclosing : (Token.mk .rparen ")" 0).kind = .rparen := rfl
  have hall := (Progress.walk_append_of_eq hwalk _).trans (Progress.walk_closings hclosing opened)
  obtain ⟨statement, hd⟩ := exists_derivesStatement_of_walk hall rfl
  refine ⟨_, statement, ?_, hd⟩
  intro token hm
  obtain ⟨opening, -, rfl⟩ := List.mem_map.1 hm
  exact hclosing

/-- Where tokens end that can be followed, but are no statement: a parenthesis is open that could be
closed now, or more has to come than closing parentheses. -/
theorem position_of_shortfall {position length : Nat} (hwalk : Progress.start.walk ts = some q)
    (hshort : q.shortfall? length = some position) :
    (ts = [] → position = 0) ∧
    (Closable ts → ∃ opening outer, unclosed ts = opening :: outer ∧ position = opening.start) ∧
    (ts ≠ [] → ¬ Closable ts → position = length) := by
  have hopened : q.opened = unclosed ts := Progress.opened_of_walk hwalk
  refine ⟨?_, ?_, ?_⟩
  · rintro rfl
    cases hwalk
    cases hshort
    rfl
  · intro hclosable
    have hawaited := hclosable.awaited_eq_argument hwalk hshort
    rw [Progress.shortfall?, hawaited, hopened] at hshort
    cases hunclosed : unclosed ts with
    | nil =>
      rw [hunclosed] at hshort
      cases hshort
    | cons opening outer =>
      rw [hunclosed] at hshort
      cases hshort
      exact ⟨opening, outer, rfl, rfl⟩
  · intro hne hclosable
    obtain ⟨awaited, opened⟩ := q
    cases awaited with
    | statement => exact absurd (Progress.eq_nil_of_walk_start hwalk rfl) hne
    | argument => exact absurd (closable_of_walk hwalk) hclosable
    | binding => cases hshort
    | term | param | dot =>
      cases hshort
      rfl

end Viability

/-- Where a fault of a text is found, in terms of the grammar. -/
structure Fault.LocatedIn (fault : Fault) (text : String) : Prop where
  /-- A character that starts no token is the fault if the tokens in front of it are viable. -/
  of_stray : ∀ f, (Scan.ofText text).ending = .error f → Viable (Scan.ofText text).tokens →
    fault = .lexical f ∧ ∃ before after, text.toList = before ++ f.char :: after ∧
      f.position = before.length ∧
      Scan.ofChars 0 before = ⟨(Scan.ofText text).tokens, .ok before.length⟩
  /-- A violation is found at the first token with which the tokens are not viable any more. -/
  of_obstacle : ∀ us, us <+: (Scan.ofText text).tokens → ¬ Viable us →
    ∃ v front token, fault = .grammar v ∧ front ++ [token] <+: (Scan.ofText text).tokens ∧
      (∀ vs, vs <+: (Scan.ofText text).tokens → (Viable vs ↔ vs.length ≤ front.length)) ∧
      v.position = token.start
  /-- In a text that ends too early a violation is found at its start if it has no tokens, at the
  innermost open parenthesis if only closing ones are missing, and at its end otherwise. -/
  of_shortfall : ∀ length, (Scan.ofText text).ending = .ok length →
    Viable (Scan.ofText text).tokens →
    ∃ v, fault = .grammar v ∧
      ((Scan.ofText text).tokens = [] → v.position = 0) ∧
      (Closable (Scan.ofText text).tokens → ∃ opening outer,
        unclosed (Scan.ofText text).tokens = opening :: outer ∧ v.position = opening.start) ∧
      ((Scan.ofText text).tokens ≠ [] → ¬ Closable (Scan.ofText text).tokens →
        v.position = text.length)

section Located

variable {s : Source} {ts here : List Token} {v : Violation}

/-- A violation that is found among tokens that are not viable is found at the first one that is too
much. -/
theorem Source.StopsAt.obstacle (h : s.StopsAt .start ts here (.grammar v)) (hts : ¬ Viable ts) :
    ∃ front token, front ++ [token] <+: ts ∧
      (∀ vs, vs <+: ts → (Viable vs ↔ vs.length ≤ front.length)) ∧ v.position = token.start := by
  obtain ⟨front, r, rfl, hr, hrefuses⟩ := h
  cases here with
  | nil =>
    rw [List.append_nil] at hts
    exact absurd (viable_iff.2 ⟨r, hr⟩) hts
  | cons token after =>
    have hprefix : front ++ [token] <+: front ++ token :: after := ⟨after, by simp⟩
    refine ⟨front, token, hprefix, ?_, hrefuses.2⟩
    intro vs hvs
    constructor
    · intro hviable
      refine Nat.le_of_not_lt fun hlt => ?_
      have hlonger : front ++ [token] <+: vs := by
        refine List.prefix_of_prefix_length_le hprefix hvs ?_
        rw [List.length_append, List.length_singleton]
        exact hlt
      obtain ⟨q, hq⟩ := viable_iff.1 (hviable.of_isPrefix hlonger)
      rw [Progress.walk_append_of_eq hr, Progress.walk, hrefuses.1] at hq
      cases hq
    · intro hle
      have hfront : front <+: front ++ token :: after := List.prefix_append ..
      exact (viable_iff.2 ⟨r, hr⟩).of_isPrefix (List.prefix_of_prefix_length_le hvs hfront hle)

/-- A fault is found at the first place where the text can no longer become a statement, whatever
comes behind it. -/
theorem parse_fault_located {text : String} {fault : Fault} (h : parse text = .error fault) :
    fault.LocatedIn text := by
  obtain ⟨here, hstops⟩ := stopsAt_parse h
  refine ⟨?_, ?_, ?_⟩
  · intro f hending hviable
    refine ⟨?_, ?_⟩
    · cases fault with
      | lexical f' =>
        cases hending.symm.trans hstops.1
        rfl
      | grammar v =>
        obtain ⟨q, hq⟩ := viable_iff.1 hviable
        obtain ⟨length, hlength, -⟩ := hstops.shortfall hq
        cases hending.symm.trans hlength
    · obtain ⟨before, after, htext, hposition, hbefore⟩ := Scan.ofChars_before_fault hending
      rw [Nat.zero_add] at hposition
      rw [hposition] at hbefore
      exact ⟨before, after, htext, hposition, hbefore⟩
  · intro us hus hviable
    have htokens : ¬ Viable (Scan.ofText text).tokens := fun hall => hviable (hall.of_isPrefix hus)
    cases fault with
    | lexical f => exact absurd (viable_iff.2 hstops.2) htokens
    | grammar v =>
      obtain ⟨front, token, hfront⟩ := hstops.obstacle htokens
      exact ⟨v, front, token, rfl, hfront⟩
  · intro length hending hviable
    cases fault with
    | lexical f => cases hending.symm.trans hstops.1
    | grammar v =>
      obtain ⟨q, hq⟩ := viable_iff.1 hviable
      obtain ⟨length', hlength, hshort⟩ := hstops.shortfall hq
      have htext : length' = text.length := by
        rw [Scan.ending_eq_ok hlength, Nat.zero_add, String.length_toList]
      rw [htext] at hshort
      exact ⟨v, rfl, position_of_shortfall hq hshort⟩

/-- A character that starts no token is not the fault if a closing parenthesis in front of it is
one. -/
theorem stray_parenthesis_located :
    ∃ v, parse "x ) #" = .error (.grammar v) ∧ v.position = 2 ∧
      (Fault.grammar v).LocatedIn "x ) #" := by
  have h : parse "x ) #" =
      .error (.grammar ⟨.strayParenthesis, 2, some ⟨.rparen, ")", 2⟩, [.stop]⟩) := by
    decide +kernel
  exact ⟨_, h, rfl, parse_fault_located h⟩

end Located

end NormalOrder.Statement
