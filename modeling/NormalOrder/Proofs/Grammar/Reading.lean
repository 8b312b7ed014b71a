import NormalOrder.Proofs.Grammar

/-!
# Reading follows the grammar

A phrase of the grammar is read as the term that it stands for, whatever follows it that cannot
belong to it; and what is read is a phrase of the grammar. A fault of the text behind the statement
is met before reading has come to its end, so only a text without one is read as a statement.
-/

namespace NormalOrder.Statement

section Walking

variable {s : Source}

theorem Source.arrive_eq_ok {ts rest : List Token} (h : s.arrive ts = .ok rest) : rest = ts := by
  unfold arrive at h
  split at h <;> cases h
  rfl

theorem Source.arrive_of_ending {length : Nat} (hs : s.ending = .ok length) (ts : List Token) :
    s.arrive ts = .ok ts := by
  unfold arrive
  split
  · next h => cases h.symm.trans hs
  · rfl

theorem Source.ending_of_arrive_nil (h : s.arrive [] = .ok []) :
    ∃ length, s.ending = .ok length := by
  cases he : s.ending with
  | ok length => exact ⟨length, rfl⟩
  | error f =>
    simp only [arrive, he] at h
    cases h

theorem Source.expect_cons {length : Nat} (hs : s.ending = .ok length) {kind : Token.Kind}
    {first : Token} (hk : first.kind = kind) (after : List Token) :
    s.expect kind (first :: after) = .done first after := by
  have hcurrent : s.currentKind (first :: after) = kind := hk
  have hadvance : s.advance (first :: after) = .ok after := arrive_of_ending hs after
  unfold expect
  rw [if_pos hcurrent, hadvance]
  rfl

theorem Source.of_expect_eq_done {kind : Token.Kind} (hkind : kind ≠ .stop) {ts rest : List Token}
    {first : Token} (h : s.expect kind ts = .done first rest) :
    ts = first :: rest ∧ first.kind = kind ∧ s.arrive rest = .ok rest := by
  unfold expect at h
  split at h
  · next hk =>
    cases ts with
    | nil => exact absurd (hk.symm.trans s.kind_finalToken) hkind
    | cons u us =>
      split at h
      · next hadvance =>
        cases h
        have hrest : rest = us := arrive_eq_ok hadvance
        subst hrest
        exact ⟨rfl, hk, hadvance⟩
      · cases h
  · cases h

theorem Reply.andThen_eq_done {α β : Type} {r : Reply α} {next : α → List Token → Reply β} {b : β}
    {rest : List Token} (h : r.andThen next = .done b rest) :
    ∃ a ts, r = .done a ts ∧ next a ts = .done b rest := by
  cases r with
  | done a ts => exact ⟨a, ts, rfl, h⟩
  | failed fault ts => cases h

end Walking

theorem ne_lambda_of_mem_atomStart {kind : Token.Kind} (h : kind ∈ atomStart) : kind ≠ .lambda := by
  rintro rfl
  revert h
  decide

theorem ne_rparen_of_mem_termStart {kind : Token.Kind} (h : kind ∈ termStart) : kind ≠ .rparen := by
  rintro rfl
  revert h
  decide

section Completeness

variable (s : Source)

/-- How a phrase of the grammar is read when `rest` follows it. A phrase that reaches as far as it
can has to be followed by something that does not belong to it. -/
def ReadsAs : Nonterminal → List Token → Term → Prop
  | .term, ts, t => ∀ rest, s.currentKind rest ∉ termStart →
      readTerm s .term (ts ++ rest) = .done t rest
  | .abstraction, ts, t => ∀ rest, s.currentKind rest ∉ termStart →
      readTerm s .abstraction (ts ++ rest) = .done t rest
  | .application, ts, t => ∀ rest, s.currentKind rest ∉ termStart →
      readTerm s .application (ts ++ rest) = .done t rest
  | .atoms, ts, t => ∀ rest,
      readTerm s .application (ts ++ rest) = readTerm s (.arguments t) rest
  | .atom, ts, t => ∀ rest, readTerm s .atom (ts ++ rest) = .done t rest

variable {s} {length : Nat}

theorem readTerm_arguments_of_atom {us : List Token} {f a : Term} (hd : Derives .atom us a)
    (ha : ReadsAs s .atom us a) (rest : List Token) :
    readTerm s (.arguments f) (us ++ rest) = readTerm s (.arguments (.app f a)) rest := by
  have hk : s.currentKind (us ++ rest) ∈ atomStart := hd.currentKind_append s rest
  rw [readTerm_arguments, if_neg (ne_lambda_of_mem_atomStart hk), if_pos hk, ha rest]
  rfl

theorem readTerm_arguments_of_stop {rest : List Token} (h : s.currentKind rest ∉ termStart)
    (f : Term) : readTerm s (.arguments f) rest = .done f rest := by
  have hlambda : s.currentKind rest ≠ .lambda := fun he => h (by simp [he, termStart])
  have hatom : s.currentKind rest ∉ atomStart := fun hm => h (List.mem_cons_of_mem _ hm)
  rw [readTerm_arguments, if_neg hlambda, if_neg hatom]

theorem readEnclosed_of_term (hs : s.ending = .ok length) {ts : List Token} {t : Term}
    (hd : Derives .term ts t) (ht : ReadsAs s .term ts t) (opening : Token) {closing : Token}
    (hclosing : closing.kind = .rparen) (rest : List Token) :
    readEnclosed s (ts ++ closing :: rest) opening = .done t rest := by
  have hk : s.currentKind (ts ++ closing :: rest) ∈ termStart := hd.currentKind_append s _
  have hstop : s.currentKind (closing :: rest) ∉ termStart := by
    have hc : s.currentKind (closing :: rest) = .rparen := hclosing
    rw [hc]
    decide
  unfold readEnclosed
  rw [if_neg (ne_rparen_of_mem_termStart hk), ht _ hstop]
  simp only [Reply.andThen, if_pos hclosing, Source.arrive_of_ending hs rest]

/-- A phrase of the grammar is read as what it stands for. -/
theorem readsAs_of_derives (hs : s.ending = .ok length) {n : Nonterminal} {ts : List Token}
    {t : Term} (h : Derives n ts t) : ReadsAs s n ts t := by
  induction h with
  | abstractionTerm hd ih =>
    intro rest hrest
    have hk : s.currentKind _ = .lambda := List.mem_singleton.1 (hd.currentKind_append s rest)
    rw [readTerm_term, if_pos hk]
    exact ih rest hrest
  | applicationTerm hd ih =>
    intro rest hrest
    have hk := hd.currentKind_append s rest
    rw [readTerm_term, if_neg (ne_lambda_of_mem_atomStart hk)]
    exact ih rest hrest
  | abstraction hbinder hparam hdot _ ih =>
    intro rest hrest
    simp only [List.cons_append, readTerm_abstraction, Source.expect_cons hs hbinder,
      Source.expect_cons hs hparam, Source.expect_cons hs hdot, Reply.andThen, ih rest hrest]
  | atoms _ ih =>
    intro rest hrest
    rw [ih rest, readTerm_arguments_of_stop hrest]
  | @trailing ts us f a _ hda ihf iha =>
    intro rest hrest
    have hk : s.currentKind (us ++ rest) = .lambda :=
      List.mem_singleton.1 (hda.currentKind_append s rest)
    rw [List.append_assoc, ihf, readTerm_arguments, if_pos hk, iha rest hrest]
    rfl
  | single _ ih =>
    intro rest
    rw [readTerm_application, ih rest]
    rfl
  | apply _ hda ihf iha =>
    intro rest
    rw [List.append_assoc, ihf, readTerm_arguments_of_atom hda iha]
  | identifier hx =>
    intro rest
    simp only [List.cons_append, List.nil_append, readTerm_atom_cons, hx,
      Source.arrive_of_ending hs rest]
  | @enclosed opening closing ts t hopening hclosing hd ih =>
    intro rest
    simp only [List.cons_append, List.append_assoc, List.nil_append, readTerm_atom_cons, hopening,
      Source.arrive_of_ending hs]
    exact readEnclosed_of_term hs hd ih opening hclosing rest

end Completeness

section Soundness

/-- What the tokens that are read as a phrase are in the grammar. Arguments go on with the atoms of
the function in front of them. -/
def Phrase.Explains : Phrase → List Token → Term → Prop
  | .term, us, t => Derives .term us t
  | .abstraction, us, t => Derives .abstraction us t
  | .application, us, t => Derives .application us t
  | .atom, us, t => Derives .atom us t
  | .arguments f, us, t => ∀ fs, Derives .atoms fs f → Derives .application (fs ++ us) t

variable {s : Source}

/-- `t` is read from `ts` as the grammar says, and `rest` is left; it is a place in the source. -/
def Source.ReadsTo (s : Source) (phrase : Phrase) (ts : List Token) (t : Term) (rest : List Token) :
    Prop :=
  (∃ us, ts = us ++ rest ∧ phrase.Explains us t) ∧ s.arrive rest = .ok rest

def Source.Sound (s : Source) (phrase : Phrase) (ts : List Token) : Prop :=
  ∀ t rest, s.arrive ts = .ok ts → readTerm s phrase ts = .done t rest → s.ReadsTo phrase ts t rest

theorem length_of_readTerm {phrase : Phrase} {ts rest : List Token} {t : Term}
    (h : readTerm s phrase ts = .done t rest) : rest.length + phrase.least ≤ ts.length :=
  (readPhrase s phrase ts).2 t rest h

theorem sound_term {ts : List Token} (habs : s.Sound .abstraction ts)
    (happ : s.Sound .application ts) : s.Sound .term ts := by
  intro t rest hts h
  rw [readTerm_term] at h
  split at h
  · obtain ⟨⟨us, hus, hd⟩, hrest⟩ := habs t rest hts h
    exact ⟨⟨us, hus, .abstractionTerm hd⟩, hrest⟩
  · obtain ⟨⟨us, hus, hd⟩, hrest⟩ := happ t rest hts h
    exact ⟨⟨us, hus, .applicationTerm hd⟩, hrest⟩

theorem sound_abstraction {ts : List Token}
    (hterm : ∀ ts', ts'.length < ts.length → s.Sound .term ts') : s.Sound .abstraction ts := by
  intro t rest _ h
  rw [readTerm_abstraction] at h
  obtain ⟨binder, ts₁, h₁, h⟩ := Reply.andThen_eq_done h
  obtain ⟨param, ts₂, h₂, h⟩ := Reply.andThen_eq_done h
  obtain ⟨dot, ts₃, h₃, h⟩ := Reply.andThen_eq_done h
  obtain ⟨b, ts₄, hb, h⟩ := Reply.andThen_eq_done h
  cases h
  obtain ⟨rfl, hbinder, -⟩ := Source.of_expect_eq_done (by decide) h₁
  obtain ⟨rfl, hparam, -⟩ := Source.of_expect_eq_done (by decide) h₂
  obtain ⟨rfl, hdot, hts₃⟩ := Source.of_expect_eq_done (by decide) h₃
  have hlt : ts₃.length < (binder :: param :: dot :: ts₃).length := by
    simp only [List.length_cons]
    omega
  obtain ⟨⟨us, rfl, hd⟩, hrest⟩ := hterm ts₃ hlt b rest hts₃ hb
  exact ⟨⟨binder :: param :: dot :: us, rfl, .abstraction hbinder hparam hdot hd⟩, hrest⟩

theorem sound_application {ts : List Token} (hatom : s.Sound .atom ts)
    (harguments : ∀ f ts', ts'.length < ts.length → s.Sound (.arguments f) ts') :
    s.Sound .application ts := by
  intro t rest hts h
  rw [readTerm_application] at h
  obtain ⟨f, ts₁, hf, hnext⟩ := Reply.andThen_eq_done h
  have hlt : ts₁.length < ts.length := length_of_readTerm hf
  obtain ⟨⟨fs, rfl, hdf⟩, hts₁⟩ := hatom f ts₁ hts hf
  obtain ⟨⟨us, rfl, hd⟩, hrest⟩ := harguments f ts₁ hlt t rest hts₁ hnext
  exact ⟨⟨fs ++ us, (List.append_assoc ..).symm, hd fs (.single hdf)⟩, hrest⟩

theorem sound_arguments {f : Term} {ts : List Token} (habs : s.Sound .abstraction ts)
    (hatom : s.Sound .atom ts)
    (harguments : ∀ f ts', ts'.length < ts.length → s.Sound (.arguments f) ts') :
    s.Sound (.arguments f) ts := by
  intro t rest hts h
  rw [readTerm_arguments] at h
  split at h
  · obtain ⟨a, ts₁, ha, h⟩ := Reply.andThen_eq_done h
    cases h
    obtain ⟨⟨us, hus, hda⟩, hrest⟩ := habs a rest hts ha
    exact ⟨⟨us, hus, fun fs hfs => .trailing hfs hda⟩, hrest⟩
  · split at h
    · obtain ⟨a, ts₁, ha, hnext⟩ := Reply.andThen_eq_done h
      have hlt : ts₁.length < ts.length := length_of_readTerm ha
      obtain ⟨⟨us, rfl, hda⟩, hts₁⟩ := hatom a ts₁ hts ha
      obtain ⟨⟨vs, rfl, hd⟩, hrest⟩ := harguments (.app f a) ts₁ hlt t rest hts₁ hnext
      refine ⟨⟨us ++ vs, (List.append_assoc ..).symm, ?_⟩, hrest⟩
      intro fs hfs
      rw [← List.append_assoc]
      exact hd (fs ++ us) (.apply hfs hda)
    · cases h
      refine ⟨⟨[], rfl, ?_⟩, hts⟩
      intro fs hfs
      rw [List.append_nil]
      exact .atoms hfs

theorem of_readEnclosed_eq_done {ts rest : List Token} {opening : Token} {t : Term}
    (h : readEnclosed s ts opening = .done t rest) :
    ∃ closing, readTerm s .term ts = .done t (closing :: rest) ∧ closing.kind = .rparen ∧
      s.arrive rest = .ok rest := by
  unfold readEnclosed at h
  split at h
  · cases h
  · obtain ⟨u, ts₁, hu, hnext⟩ := Reply.andThen_eq_done h
    cases ts₁ with
    | nil => cases hnext
    | cons closing after =>
      dsimp only at hnext
      split at hnext
      · next hclosing =>
        split at hnext
        · cases hnext
        · next harrive =>
          cases hnext
          obtain rfl := Source.arrive_eq_ok harrive
          exact ⟨closing, hu, hclosing, harrive⟩
      · cases hnext

theorem sound_atom {ts : List Token}
    (hterm : ∀ ts', ts'.length < ts.length → s.Sound .term ts') : s.Sound .atom ts := by
  intro t rest _ h
  cases ts with
  | nil =>
    rw [readTerm_atom_nil] at h
    cases h
  | cons first after =>
    rw [readTerm_atom_cons] at h
    split at h
    · next hk =>
      split at h
      · cases h
      · next harrive =>
        cases h
        obtain rfl := Source.arrive_eq_ok harrive
        exact ⟨⟨[first], rfl, .identifier hk⟩, harrive⟩
    · next hk =>
      split at h
      · cases h
      · next harrive =>
        obtain rfl := Source.arrive_eq_ok harrive
        obtain ⟨closing, hread, hclosing, hrest⟩ := of_readEnclosed_eq_done h
        obtain ⟨⟨us, rfl, hd⟩, -⟩ := hterm _ (Nat.lt_succ_self _) t _ harrive hread
        exact ⟨⟨first :: (us ++ [closing]), by simp, .enclosed hk hclosing hd⟩, hrest⟩
    · cases h
    · cases h

/-- Induction that follows the reading: a phrase reads others of lower rank in the same place, or
later in the text. -/
theorem Phrase.induction {motive : Phrase → List Token → Prop}
    (term : ∀ ts, motive .abstraction ts → motive .application ts → motive .term ts)
    (abstraction : ∀ ts, (∀ ts', ts'.length < ts.length → motive .term ts') →
      motive .abstraction ts)
    (application : ∀ ts, motive .atom ts →
      (∀ f ts', ts'.length < ts.length → motive (.arguments f) ts') → motive .application ts)
    (arguments : ∀ f ts, motive .abstraction ts → motive .atom ts →
      (∀ f ts', ts'.length < ts.length → motive (.arguments f) ts') → motive (.arguments f) ts)
    (atom : ∀ ts, (∀ ts', ts'.length < ts.length → motive .term ts') → motive .atom ts)
    (phrase : Phrase) (ts : List Token) : motive phrase ts := by
  induction hn : 3 * ts.length + phrase.rank using Nat.strongRecOn generalizing phrase ts with
  | ind n ih =>
    have hlater : ∀ phrase' ts', ts'.length < ts.length → motive phrase' ts' := by
      intro phrase' ts' hlt
      have hrank : phrase'.rank ≤ 2 := by cases phrase' <;> simp [Phrase.rank]
      exact ih _ (by omega) phrase' ts' rfl
    have hhere : ∀ phrase', phrase'.rank < phrase.rank → motive phrase' ts := by
      intro phrase' hlt
      exact ih _ (by omega) phrase' ts rfl
    cases phrase with
    | term => exact term ts (hhere _ (by decide)) (hhere _ (by decide))
    | abstraction => exact abstraction ts (hlater _)
    | application => exact application ts (hhere _ (by decide)) (fun _ => hlater _)
    | atom => exact atom ts (hlater _)
    | arguments f =>
      exact arguments f ts (hhere _ Nat.zero_lt_one) (hhere _ Nat.zero_lt_one) (fun _ => hlater _)

/-- What is read is a phrase of the grammar. -/
theorem sound_readTerm (s : Source) (phrase : Phrase) (ts : List Token) : s.Sound phrase ts :=
  Phrase.induction (fun _ => sound_term) (fun _ => sound_abstraction) (fun _ => sound_application)
    (fun _ _ => sound_arguments) (fun _ => sound_atom) phrase ts

end Soundness

end NormalOrder.Statement
