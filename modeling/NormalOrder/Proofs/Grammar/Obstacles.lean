import NormalOrder.Proofs.Grammar.Parsing
import NormalOrder.Proofs.Grammar.Progress

/-!
# Where reading stops

Reading and the progress through a statement go together. A violation of the grammar is found at the
first token that cannot come next, or at the end of a text that cannot end there; a character that
starts no token is found when all tokens in front of it have been followed, and not before. Which of
the two is found thus depends on nothing but what comes first in the text.
-/

namespace NormalOrder.Statement

section Stops

variable {s : Source} {p q : Progress} {ts us here : List Token} {fault : Fault}

/-- What comes first at a place cannot come next, and this is seen at the given position. -/
def Source.Refuses (s : Source) (q : Progress) (position : Nat) : List Token → Prop
  | [] => ∃ length, s.ending = .ok length ∧ q.shortfall? length = some position
  | token :: _ => q.next token = none ∧ position = token.start

/-- The reading of `ts` stops as the progress from `p` does: all tokens can be followed up to the
character that starts no token, or up to the place where what comes first is refused. -/
def Source.StopsAt (s : Source) (p : Progress) (ts here : List Token) : Fault → Prop
  | .lexical f => s.ending = .error f ∧ ∃ q, p.walk ts = some q
  | .grammar v => ∃ us q, ts = us ++ here ∧ p.walk us = some q ∧ s.Refuses q v.position here

theorem Source.Refuses.stopsAt {v : Violation} (h : s.Refuses p v.position ts) :
    s.StopsAt p ts ts (.grammar v) :=
  ⟨[], p, rfl, rfl, h⟩

theorem Source.StopsAt.append (hus : p.walk us = some q) (h : s.StopsAt q ts here fault) :
    s.StopsAt p (us ++ ts) here fault := by
  cases fault with
  | lexical f =>
    obtain ⟨hending, r, hr⟩ := h
    exact ⟨hending, r, (Progress.walk_append_of_eq hus ts).trans hr⟩
  | grammar v =>
    obtain ⟨vs, r, rfl, hr, hrefuses⟩ := h
    exact ⟨us ++ vs, r, (List.append_assoc ..).symm, (Progress.walk_append_of_eq hus vs).trans hr,
      hrefuses⟩

theorem Source.StopsAt.cons {first : Token} (hfirst : p.next first = some q)
    (h : s.StopsAt q ts here fault) : s.StopsAt p (first :: ts) here fault := by
  have hwalk : p.walk [first] = some q := Progress.walk_cons hfirst []
  exact h.append hwalk

theorem Source.arrive_eq_error {f : LexFault} (h : s.arrive ts = .error f) :
    ts = [] ∧ s.ending = .error f := by
  unfold arrive at h
  split at h
  · next hending =>
    cases h
    exact ⟨rfl, hending⟩
  · cases h

/-- Behind a token that can come next, a character that starts no token is found. -/
theorem Source.stopsAt_of_arrive {first : Token} {f : LexFault} (hfirst : p.next first = some q)
    (h : s.arrive ts = .error f) : s.StopsAt p (first :: ts) here (.lexical f) := by
  obtain ⟨rfl, hending⟩ := Source.arrive_eq_error h
  exact ⟨hending, q, Progress.walk_cons hfirst []⟩

theorem Source.StopsAt.of_cons {first : Token} (hfirst : p.next first = some q)
    (h : s.StopsAt p (first :: ts) here fault) : s.StopsAt q ts here fault := by
  cases fault with
  | lexical f =>
    obtain ⟨hending, r, hr⟩ := h
    exact ⟨hending, r, (Progress.walk_cons hfirst ts).symm.trans hr⟩
  | grammar v =>
    obtain ⟨us, r, hus, hr, hrefuses⟩ := h
    cases us with
    | nil =>
      rw [List.nil_append] at hus
      subst hus
      cases hr
      cases hfirst.symm.trans hrefuses.1
    | cons first' us =>
      obtain ⟨rfl, rfl⟩ := List.cons.inj hus
      exact ⟨us, r, rfl, (Progress.walk_cons hfirst us).symm.trans hr, hrefuses⟩

/-- Where the first token is taken alike, reading stops alike. -/
theorem Source.StopsAt.congr {p' : Progress} {first : Token} (hfirst : p'.next first = p.next first)
    (h : s.StopsAt p (first :: ts) here fault) : s.StopsAt p' (first :: ts) here fault := by
  cases hnext : p.next first with
  | some q => exact (h.of_cons hnext).cons (hfirst.trans hnext)
  | none =>
    cases fault with
    | lexical f =>
      obtain ⟨-, r, hr⟩ := h
      rw [Progress.walk, hnext] at hr
      cases hr
    | grammar v =>
      obtain ⟨us, r, hus, hr, hrefuses⟩ := h
      cases us with
      | nil =>
        rw [List.nil_append] at hus
        subst hus
        cases hr
        exact ⟨[], p', rfl, rfl, hfirst.trans hnext, hrefuses.2⟩
      | cons first' us =>
        obtain ⟨rfl, -⟩ := List.cons.inj hus
        rw [Progress.walk, hnext] at hr
        cases hr

/-- The current token is refused, or the end of the text is. -/
theorem Source.refuses_current (hts : s.arrive ts = .ok ts)
    (hnext : ∀ token rest, ts = token :: rest → p.next token = none)
    (hend : ∀ length, p.shortfall? length = some length) : s.Refuses p (s.current ts).start ts := by
  cases ts with
  | nil =>
    obtain ⟨length, hending⟩ := Source.ending_of_arrive_nil hts
    refine ⟨length, hending, ?_⟩
    rw [hend, Source.current, Source.finalToken, hending]
    rfl
  | cons token rest => exact ⟨hnext token rest rfl, rfl⟩

end Stops

theorem Reply.andThen_eq_failed {α β : Type} {r : Reply α} {next : α → List Token → Reply β}
    {fault : Fault} {here : List Token} (h : r.andThen next = .failed fault here) :
    r = .failed fault here ∨ ∃ a ts, r = .done a ts ∧ next a ts = .failed fault here := by
  cases r with
  | done a ts => exact .inr ⟨a, ts, rfl, h⟩
  | failed fault' here' =>
    cases h
    exact .inl rfl

section Ends

variable {s : Source}

/-- Whether a phrase can be followed by something of the given kind. All but an atom reach as far as
they can. -/
def Phrase.EndsBefore (kind : Token.Kind) : Phrase → Prop
  | .atom => True
  | _ => kind ∉ termStart

def Source.ReadsFar (s : Source) (phrase : Phrase) (ts : List Token) : Prop :=
  ∀ t rest, readTerm s phrase ts = .done t rest → phrase.EndsBefore (s.currentKind rest)

theorem readsFar_arguments {f : Term} {ts : List Token} (habs : s.ReadsFar .abstraction ts)
    (harguments : ∀ f ts', ts'.length < ts.length → s.ReadsFar (.arguments f) ts') :
    s.ReadsFar (.arguments f) ts := by
  intro t rest h
  rw [readTerm_arguments] at h
  split at h
  · obtain ⟨a, ts₁, ha, h⟩ := Reply.andThen_eq_done h
    cases h
    exact habs a rest ha
  · next hlambda =>
    split at h
    · obtain ⟨a, ts₁, ha, hnext⟩ := Reply.andThen_eq_done h
      exact harguments (.app f a) ts₁ (length_of_readTerm ha) t rest hnext
    · next hatom =>
      cases h
      intro hm
      rcases List.mem_cons.1 hm with hk | hk
      · exact hlambda hk
      · exact hatom hk

/-- A phrase that reaches as far as it can is followed by nothing that could belong to it. -/
theorem readsFar (s : Source) (phrase : Phrase) (ts : List Token) : s.ReadsFar phrase ts := by
  refine Phrase.induction ?_ ?_ ?_ (fun _ _ habs _ => readsFar_arguments habs)
    (fun _ _ _ _ _ => trivial) phrase ts
  · intro ts habs happ t rest h
    rw [readTerm_term] at h
    split at h
    · exact habs t rest h
    · exact happ t rest h
  · intro ts hterm t rest h
    rw [readTerm_abstraction] at h
    obtain ⟨binder, ts₁, h₁, h⟩ := Reply.andThen_eq_done h
    obtain ⟨param, ts₂, h₂, h⟩ := Reply.andThen_eq_done h
    obtain ⟨dot, ts₃, h₃, h⟩ := Reply.andThen_eq_done h
    obtain ⟨b, ts₄, hb, h⟩ := Reply.andThen_eq_done h
    cases h
    have hlt₁ := Source.length_of_expect (by decide) h₁
    have hlt₂ := Source.length_of_expect (by decide) h₂
    have hlt₃ := Source.length_of_expect (by decide) h₃
    exact hterm ts₃ (by omega) b rest hb
  · intro ts _ harguments t rest h
    rw [readTerm_application] at h
    obtain ⟨f, ts₁, hf, hnext⟩ := Reply.andThen_eq_done h
    exact harguments f ts₁ (length_of_readTerm hf) t rest hnext

end Ends

section Obstacles

variable {s : Source} {p : Progress} {ts : List Token}

/-- Where a phrase is read: what is awaited there, and what comes first if the reading depends on
it. -/
def Phrase.Due (kind : Token.Kind) (p : Progress) : Phrase → Prop
  | .term => p.awaited = .term
  | .abstraction => p.Ready ∧ kind = .lambda
  | .application => p.awaited = .term ∧ kind ≠ .lambda
  | .atom => p.Ready ∧ kind ≠ .lambda ∧ (p.awaited = .term ∨ kind ∈ atomStart)
  | .arguments _ => p.awaited = .argument

def Source.Stops (s : Source) (phrase : Phrase) (ts : List Token) : Prop :=
  ∀ p fault here, s.arrive ts = .ok ts → phrase.Due (s.currentKind ts) p →
    readTerm s phrase ts = .failed fault here → s.StopsAt p ts here fault

structure Progress.Needs (p : Progress) (kind : Token.Kind) : Prop where
  next_of_ne : ∀ token, token.kind ≠ kind → p.next token = none
  shortfall : ∀ length, p.shortfall? length = some length

theorem Progress.needs_param (opened : List Token) : Needs ⟨.param, opened⟩ .identifier := by
  refine ⟨?_, fun _ => rfl⟩
  intro token hk
  cases hkind : token.kind <;> simp_all [next, Awaited.admitsTerm]

theorem Progress.needs_dot (opened : List Token) : Needs ⟨.dot, opened⟩ .dot := by
  refine ⟨?_, fun _ => rfl⟩
  intro token hk
  cases hkind : token.kind <;> simp_all [next, Awaited.admitsTerm]

theorem stopsAt_expect {q : Progress} {kind : Token.Kind} {fault : Fault} {here : List Token}
    (hkind : kind ≠ .stop) (hts : s.arrive ts = .ok ts)
    (hnext : ∀ token, token.kind = kind → p.next token = some q)
    (hneeds : s.currentKind ts ≠ kind → p.Needs kind)
    (h : s.expect kind ts = .failed fault here) : s.StopsAt p ts here fault := by
  unfold Source.expect at h
  split at h
  · next hk =>
    cases ts with
    | nil => exact absurd (hk.symm.trans s.kind_finalToken) hkind
    | cons first after =>
      split at h
      · cases h
      · next f hadvance =>
        cases h
        exact Source.stopsAt_of_arrive (hnext first hk) hadvance
  · next hk =>
    cases h
    refine (Source.refuses_current hts ?_ (hneeds hk).shortfall).stopsAt
    rintro token rest rfl
    exact (hneeds hk).next_of_ne token hk

theorem stops_term (habs : s.Stops .abstraction ts) (happ : s.Stops .application ts) :
    s.Stops .term ts := by
  intro p fault here hts hdue h
  rw [readTerm_term] at h
  split at h
  · next hk => exact habs p fault here hts ⟨.inl hdue, hk⟩ h
  · next hk => exact happ p fault here hts ⟨hdue, hk⟩ h

theorem stops_abstraction (hterm : ∀ ts', ts'.length < ts.length → s.Stops .term ts') :
    s.Stops .abstraction ts := by
  rintro p fault here hts ⟨hready, hk⟩ h
  rw [readTerm_abstraction] at h
  rcases Reply.andThen_eq_failed h with hfail | ⟨binder, ts₁, h₁, hparamOn⟩
  · exact stopsAt_expect (by decide) hts (fun _ => Progress.next_lambda hready) (absurd hk) hfail
  obtain ⟨rfl, hbinder, hts₁⟩ := Source.of_expect_eq_done (by decide) h₁
  apply Source.StopsAt.cons (Progress.next_lambda hready hbinder)
  rcases Reply.andThen_eq_failed hparamOn with hfail | ⟨param, ts₂, h₂, hdotOn⟩
  · exact stopsAt_expect (by decide) hts₁ (fun _ => Progress.next_param _)
      (fun _ => Progress.needs_param _) hfail
  obtain ⟨rfl, hparam, hts₂⟩ := Source.of_expect_eq_done (by decide) h₂
  apply Source.StopsAt.cons (Progress.next_param _ hparam)
  rcases Reply.andThen_eq_failed hdotOn with hfail | ⟨dot, ts₃, h₃, hbodyOn⟩
  · exact stopsAt_expect (by decide) hts₂ (fun _ => Progress.next_dot _)
      (fun _ => Progress.needs_dot _) hfail
  obtain ⟨rfl, hdot, hts₃⟩ := Source.of_expect_eq_done (by decide) h₃
  apply Source.StopsAt.cons (Progress.next_dot _ hdot)
  rcases Reply.andThen_eq_failed hbodyOn with hfail | ⟨b, rest, -, hdone⟩
  · have hlt : ts₃.length < (binder :: param :: dot :: ts₃).length := by
      simp only [List.length_cons]
      omega
    exact hterm ts₃ hlt _ fault here hts₃ rfl hfail
  · cases hdone

/-- Behind an atom its arguments are read, and the progress goes on from there. -/
theorem stopsAt_arguments {f : Term} {ts₁ here : List Token} {fault : Fault} (hready : p.Ready)
    (hts : s.arrive ts = .ok ts)
    (harguments : ∀ f ts', ts'.length < ts.length → s.Stops (.arguments f) ts')
    (hatom : readTerm s .atom ts = .done f ts₁) {g : Term}
    (h : readTerm s (.arguments g) ts₁ = .failed fault here) : s.StopsAt p ts here fault := by
  have hlt : ts₁.length < ts.length := length_of_readTerm hatom
  obtain ⟨⟨us, rfl, hd⟩, hts₁⟩ := sound_readTerm s .atom ts f ts₁ hts hatom
  have hrest : s.StopsAt ⟨.argument, p.opened⟩ ts₁ here fault :=
    harguments g ts₁ hlt _ fault here hts₁ rfl h
  exact hrest.append (Progress.walk_of_derives hd hready)

theorem stops_application (hatom : s.Stops .atom ts)
    (harguments : ∀ f ts', ts'.length < ts.length → s.Stops (.arguments f) ts') :
    s.Stops .application ts := by
  rintro p fault here hts ⟨hdue, hk⟩ h
  rw [readTerm_application] at h
  rcases Reply.andThen_eq_failed h with h | ⟨f, ts₁, hf, h⟩
  · exact hatom p fault here hts ⟨.inl hdue, hk, .inl hdue⟩ h
  · exact stopsAt_arguments (.inl hdue) hts harguments hf h

theorem stops_arguments {f : Term} (habs : s.Stops .abstraction ts) (hatom : s.Stops .atom ts)
    (harguments : ∀ f ts', ts'.length < ts.length → s.Stops (.arguments f) ts') :
    s.Stops (.arguments f) ts := by
  intro p fault here hts hdue h
  have hready : p.Ready := .inr hdue
  rw [readTerm_arguments] at h
  split at h
  · next hk =>
    rcases Reply.andThen_eq_failed h with h | ⟨a, ts₁, -, h⟩
    · exact habs p fault here hts ⟨hready, hk⟩ h
    · cases h
  · next hlambda =>
    split at h
    · next hk =>
      rcases Reply.andThen_eq_failed h with h | ⟨a, ts₁, ha, h⟩
      · exact hatom p fault here hts ⟨hready, hlambda, .inr hk⟩ h
      · exact stopsAt_arguments hready hts harguments ha h
    · cases h

/-- Between parentheses, the opening one is open, and it is at fault if the text ends before it is
closed. -/
theorem stopsAt_readEnclosed {opening : Token} {here : List Token} {fault : Fault}
    (hterm : s.Stops .term ts) (hts : s.arrive ts = .ok ts) (hp : p.awaited = .term)
    (hopened : ∃ opened, p.opened = opening :: opened)
    (h : readEnclosed s ts opening = .failed fault here) : s.StopsAt p ts here fault := by
  obtain ⟨opened, hopened⟩ := hopened
  unfold readEnclosed at h
  split at h
  · next hk =>
    cases h
    cases ts with
    | nil => cases (currentKind_nil s).symm.trans hk
    | cons token rest =>
      have hnext : p.next token = none :=
        Progress.next_term_eq_none hp fun hm => ne_rparen_of_mem_termStart hm hk
      exact Source.Refuses.stopsAt ⟨hnext, rfl⟩
  · rcases Reply.andThen_eq_failed h with hfail | ⟨t, ts₁, ht, hclose⟩
    · exact hterm p fault here hts hp hfail
    have hfar : s.currentKind ts₁ ∉ termStart := readsFar s .term ts t ts₁ ht
    obtain ⟨⟨us, rfl, hd⟩, hts₁⟩ := sound_readTerm s .term ts t ts₁ hts ht
    have hwalk := Progress.walk_of_derives hd (p := p) (.inl hp)
    rw [hopened] at hwalk
    refine Source.StopsAt.append hwalk ?_
    cases ts₁ with
    | nil =>
      cases hclose
      obtain ⟨length, hending⟩ := Source.ending_of_arrive_nil hts₁
      exact Source.Refuses.stopsAt ⟨length, hending, rfl⟩
    | cons closing after =>
      dsimp only at hclose
      split at hclose
      · next hclosing =>
        split at hclose
        · next f harrive =>
          cases hclose
          exact Source.stopsAt_of_arrive (Progress.next_rparen opening opened hclosing) harrive
        · cases hclose
      · next hclosing =>
        cases hclose
        exact Source.Refuses.stopsAt
          ⟨Progress.next_argument_eq_none rfl hfar fun hk => absurd hk hclosing, rfl⟩

theorem stops_atom (hterm : ∀ ts', ts'.length < ts.length → s.Stops .term ts') :
    s.Stops .atom ts := by
  rintro p fault here hts ⟨hready, hlambda, hdue⟩ h
  -- What does not start an atom is read where a term is awaited, and nothing else can come there.
  have hstart : s.currentKind ts ∉ atomStart → p.awaited = .term ∧
      s.currentKind ts ∉ termStart := by
    intro hk
    refine ⟨hdue.resolve_right hk, fun hm => ?_⟩
    rcases List.mem_cons.1 hm with hm | hm
    · exact hlambda hm
    · exact hk hm
  cases ts with
  | nil =>
    rw [readTerm_atom_nil] at h
    cases h
    have hp := (hstart (by rw [currentKind_nil]; decide)).1
    exact (Source.refuses_current hts (fun _ _ he => nomatch he)
      fun length => by rw [Progress.shortfall?, hp]).stopsAt
  | cons first after =>
    have hrefuses : first.kind ∉ atomStart → p.next first = none := fun hk =>
      Progress.next_term_eq_none (hstart hk).1 (hstart hk).2
    rw [readTerm_atom_cons] at h
    split at h
    · next hk =>
      split at h
      · next f harrive =>
        cases h
        exact Source.stopsAt_of_arrive (Progress.next_identifier hready hk) harrive
      · cases h
    · next hk =>
      have hfirst := Progress.next_lparen hready hk
      split at h
      · next f harrive =>
        cases h
        exact Source.stopsAt_of_arrive hfirst harrive
      · next harrive =>
        obtain rfl := Source.arrive_eq_ok harrive
        exact (stopsAt_readEnclosed (hterm _ (Nat.lt_succ_self _)) harrive rfl ⟨_, rfl⟩ h).cons
          hfirst
    · next hk =>
      cases h
      exact Source.Refuses.stopsAt ⟨hrefuses (by rw [hk]; decide), rfl⟩
    · next hidentifier hlparen _ =>
      cases h
      have hk : first.kind ∉ atomStart := by
        simp only [atomStart, List.mem_cons, List.not_mem_nil, or_false, not_or]
        exact ⟨hidentifier, hlparen⟩
      exact Source.Refuses.stopsAt ⟨hrefuses hk, rfl⟩

/-- The reading of a phrase that fails stops as the progress does. -/
theorem stops_readTerm (s : Source) (phrase : Phrase) (ts : List Token) : s.Stops phrase ts :=
  Phrase.induction (fun _ => stops_term) (fun _ => stops_abstraction) (fun _ => stops_application)
    (fun _ _ => stops_arguments) (fun _ => stops_atom) phrase ts

end Obstacles

section Statements

variable {s : Source} {ts here : List Token} {fault : Fault}

theorem of_finish_eq_failed (h : finish s ts = .failed fault here) :
    s.currentKind ts ≠ .stop ∧ here = ts ∧
      ∃ reason, fault = .grammar (s.violation ts [.stop] reason) := by
  unfold finish at h
  split at h
  · cases h
  · next hk =>
    cases h
    exact ⟨by rw [hk]; decide, rfl, _, rfl⟩
  · next hk =>
    cases h
    exact ⟨by rw [hk]; decide, rfl, _, rfl⟩
  · next hk _ _ =>
    cases h
    exact ⟨hk, rfl, _, rfl⟩

theorem stopsAt_readLast {make : Term → Statement} (hts : s.arrive ts = .ok ts)
    (h : readLast s make ts = .failed fault here) : s.StopsAt ⟨.term, []⟩ ts here fault := by
  rcases Reply.andThen_eq_failed h with h | ⟨t, ts₁, ht, h⟩
  · exact stops_readTerm s .term ts _ fault here hts rfl h
  rcases Reply.andThen_eq_failed h with h | ⟨u, ts₂, -, h⟩
  · obtain ⟨hk, rfl, reason, rfl⟩ := of_finish_eq_failed h
    have hfar : s.currentKind here ∉ termStart := readsFar s .term ts t here ht
    obtain ⟨⟨us, rfl, hd⟩, -⟩ := sound_readTerm s .term ts t here hts ht
    refine Source.StopsAt.append (Progress.walk_of_derives hd (.inl rfl)) ?_
    cases here with
    | nil => exact absurd (currentKind_nil s) hk
    | cons token rest =>
      exact Source.Refuses.stopsAt ⟨Progress.next_argument_eq_none rfl hfar fun _ => rfl, rfl⟩
  · cases h

/-- An identifier at the start can be the name of a binding, but it is none if no equals sign
follows. -/
theorem stopsAt_start_of_term {first : Token} {after : List Token}
    (hequals : first.kind = .identifier → s.currentKind after ≠ .equals)
    (h : s.StopsAt ⟨.term, []⟩ (first :: after) here fault) :
    s.StopsAt .start (first :: after) here fault := by
  by_cases hk : first.kind = .identifier
  · have hafter := h.of_cons (Progress.next_identifier (.inl rfl) hk)
    apply Source.StopsAt.cons (Progress.next_start_identifier hk)
    cases after with
    | nil =>
      cases fault with
      | lexical f => exact ⟨hafter.1, _, rfl⟩
      | grammar v =>
        obtain ⟨us, q, hus, hq, hrefuses⟩ := hafter
        obtain ⟨rfl, rfl⟩ := List.append_eq_nil_iff.1 hus.symm
        cases hq
        obtain ⟨length, -, hshort⟩ := hrefuses
        cases hshort
    | cons second rest => exact hafter.congr (Progress.next_binding_of_ne_equals (hequals hk))
  · exact h.congr (Progress.next_start_of_ne_identifier hk)

/-- The reading of a statement that fails stops as the progress through a statement does. -/
theorem stopsAt_readStatement (hts : s.arrive ts = .ok ts)
    (h : readStatement s ts = .failed fault here) : s.StopsAt .start ts here fault := by
  cases ts with
  | nil =>
    cases h
    obtain ⟨length, hending⟩ := Source.ending_of_arrive_nil hts
    exact Source.Refuses.stopsAt ⟨length, hending, rfl⟩
  | cons first after =>
    cases opening_of_readStatement h with
    | bare hequals hread => exact stopsAt_start_of_term hequals (stopsAt_readLast hts hread)
    | cutOffName hname harrive hfail =>
      cases hfail
      exact Source.stopsAt_of_arrive (Progress.next_start_identifier hname) harrive
    | cutOffEquals hname hequals hbody hfail =>
      cases hfail
      apply Source.StopsAt.cons (Progress.next_start_identifier hname)
      exact Source.stopsAt_of_arrive (Progress.next_binding_equals hequals) hbody
    | emptyBinding hname hequals hbody hstop hfail =>
      cases hfail
      apply Source.StopsAt.cons (Progress.next_start_identifier hname)
      apply Source.StopsAt.cons (Progress.next_binding_equals hequals)
      refine (Source.refuses_current hbody ?_ fun _ => rfl).stopsAt
      rintro token rest rfl
      exact Progress.next_stop _ hstop
    | binding hname hequals hbody hread =>
      apply Source.StopsAt.cons (Progress.next_start_identifier hname)
      apply Source.StopsAt.cons (Progress.next_binding_equals hequals)
      exact stopsAt_readLast hbody hread

/-- If a text cannot be read, the progress through its tokens stops where its fault is. -/
theorem stopsAt_parse {text : String} (h : parse text = .error fault) :
    ∃ here, Source.StopsAt ⟨text, (Scan.ofText text).ending⟩ .start (Scan.ofText text).tokens here
      fault := by
  rcases of_parse_eq_error h with ⟨f, harrive, rfl⟩ | ⟨harrive, here, hread⟩
  · obtain ⟨hnil, hending⟩ := Source.arrive_eq_error harrive
    rw [hnil]
    exact ⟨[], hending, _, rfl⟩
  · exact ⟨here, stopsAt_readStatement harrive hread⟩

end Statements

end NormalOrder.Statement
