import NormalOrder.Proofs.Grammar.Reading

/-!
# Parsing accepts exactly the grammar

A text is read as a statement if and only if all of it can be cut into tokens and these are that
statement in the grammar.
-/

namespace NormalOrder

theorem Token.symbol?_ne_stop (c : Char) : symbol? c ≠ some .stop := by
  unfold symbol?
  split <;> simp

/-- The end of the input is not among the tokens in front of it. -/
theorem Scan.kind_ne_stop (pos : Nat) (cs : List Char) :
    ∀ token ∈ (ofChars pos cs).tokens, token.kind ≠ .stop := by
  fun_induction ofChars pos cs with
  | case1 pos => simp
  | case2 pos c rest hblank ih => exact ih
  | case3 pos c rest hblank kind hkind ih =>
    have hstop : kind ≠ .stop := by
      rintro rfl
      exact Token.symbol?_ne_stop c hkind
    exact List.forall_mem_cons.2 ⟨hstop, ih⟩
  | case4 pos c rest hblank hkind hstart word ih => exact List.forall_mem_cons.2 ⟨by simp, ih⟩
  | case5 pos c rest hblank hkind hstart => simp

namespace Statement

variable {s : Source} {ts rest : List Token}

theorem currentKind_nil (s : Source) : s.currentKind [] = .stop :=
  s.kind_finalToken

theorem eq_nil_of_currentKind (hstop : ∀ token ∈ ts, token.kind ≠ .stop)
    (h : s.currentKind ts = .stop) : ts = [] := by
  cases ts with
  | nil => rfl
  | cons first after => exact absurd h (hstop first List.mem_cons_self)

theorem finish_nil (s : Source) : finish s [] = .done () [] := by
  unfold finish
  rw [currentKind_nil]

theorem currentKind_of_finish {u : Unit} (h : finish s ts = .done u rest) :
    s.currentKind ts = .stop := by
  unfold finish at h
  split at h
  · assumption
  all_goals cases h

theorem readLast_of_derives {length : Nat} (hs : s.ending = .ok length) {t : Term}
    (make : Term → Statement) (h : Derives .term ts t) :
    readLast s make ts = .done (make t) [] := by
  have hstop : s.currentKind [] ∉ termStart := by
    rw [currentKind_nil]
    decide
  have hread := readsAs_of_derives hs h [] hstop
  rw [List.append_nil] at hread
  unfold readLast
  rw [hread]
  simp only [Reply.andThen, finish_nil]

theorem of_readLast_eq_done {make : Term → Statement} {statement : Statement}
    (hts : s.arrive ts = .ok ts) (hstop : ∀ token ∈ ts, token.kind ≠ .stop)
    (h : readLast s make ts = .done statement rest) :
    (∃ length, s.ending = .ok length) ∧ ∃ t, statement = make t ∧ Derives .term ts t := by
  obtain ⟨t, ts₁, hread, hnext⟩ := Reply.andThen_eq_done h
  obtain ⟨u, ts₂, hfinish, hmake⟩ := Reply.andThen_eq_done hnext
  cases hmake
  obtain ⟨⟨us, rfl, hd⟩, hts₁⟩ := sound_readTerm s .term ts t ts₁ hts hread
  have hnil : ts₁ = [] :=
    eq_nil_of_currentKind (fun token hm => hstop token (List.mem_append_right us hm))
      (currentKind_of_finish hfinish)
  subst hnil
  refine ⟨Source.ending_of_arrive_nil hts₁, t, rfl, ?_⟩
  rw [List.append_nil]
  exact hd

/-- In a term there is no equals sign behind the first identifier. -/
theorem currentKind_ne_equals {first : Token} {after : List Token} {t : Term}
    (h : Derives .term (first :: after) t) : s.currentKind after ≠ .equals := by
  cases after with
  | nil =>
    rw [currentKind_nil]
    decide
  | cons second rest => exact h.kind_ne_equals second (by simp)

theorem readStatement_of_derives {length : Nat} (hs : s.ending = .ok length)
    {statement : Statement} (h : DerivesStatement ts statement) :
    readStatement s ts = .done statement [] := by
  cases h with
  | @binding name equals ts t hname hequals hd =>
    have hequals' : s.currentKind (equals :: ts) = .equals := hequals
    have hadvance : s.advance (equals :: ts) = .ok ts := Source.arrive_of_ending hs ts
    have hk := hd.currentKind_append s []
    rw [List.append_nil] at hk
    have hne : s.currentKind ts ≠ .stop := by
      intro he
      rw [he] at hk
      revert hk
      decide
    unfold readStatement
    simp only [if_pos hname, Source.arrive_of_ending hs, if_pos hequals', hadvance, if_neg hne]
    exact readLast_of_derives hs _ hd
  | bare hd =>
    obtain ⟨first, after, rfl, -⟩ := hd.exists_first
    unfold readStatement
    simp only [Source.arrive_of_ending hs, if_neg (currentKind_ne_equals hd), ite_self]
    exact readLast_of_derives hs _ hd

/-- What a statement that starts with the token `first` is read as, by the tokens behind it. -/
inductive Opening (s : Source) (first : Token) (reply : Reply Statement) : List Token → Prop
  /-- There is no name with an equals sign behind it, so all of it is read as a term. -/
  | bare {after : List Token} (hequals : first.kind = .identifier → s.currentKind after ≠ .equals)
    (h : readLast s .bare (first :: after) = reply) : Opening s first reply after
  | cutOffName {after : List Token} {f : LexFault} (hname : first.kind = .identifier)
    (harrive : s.arrive after = .error f) (h : .failed (.lexical f) (first :: after) = reply) :
    Opening s first reply after
  | cutOffEquals {equals : Token} {body : List Token} {f : LexFault}
    (hname : first.kind = .identifier)
    (hequals : equals.kind = .equals) (hbody : s.arrive body = .error f)
    (h : .failed (.lexical f) (equals :: body) = reply) : Opening s first reply (equals :: body)
  | emptyBinding {equals : Token} {body : List Token} (hname : first.kind = .identifier)
    (hequals : equals.kind = .equals) (hbody : s.arrive body = .ok body)
    (hstop : s.currentKind body = .stop)
    (h : .failed (.grammar (s.violation body termStart .emptyBinding)) body = reply) :
    Opening s first reply (equals :: body)
  /-- What stands behind the name and the equals sign is read as a term. -/
  | binding {equals : Token} {body : List Token} (hname : first.kind = .identifier)
    (hequals : equals.kind = .equals) (hbody : s.arrive body = .ok body)
    (h : readLast s (.bind first.value) body = reply) : Opening s first reply (equals :: body)

theorem opening_of_readStatement {first : Token} {after : List Token} {reply : Reply Statement}
    (h : readStatement s (first :: after) = reply) : Opening s first reply after := by
  unfold readStatement at h
  dsimp only at h
  split at h
  · next hname =>
    split at h
    · next f harrive => exact .cutOffName hname harrive h
    · next ts₁ harrive =>
      obtain rfl := Source.arrive_eq_ok harrive
      split at h
      · next hequals =>
        cases ts₁ with
        | nil => cases (currentKind_nil s).symm.trans hequals
        | cons equals body =>
          split at h
          · next f hbody => exact .cutOffEquals hname hequals hbody h
          · next ts₂ hbody =>
            obtain rfl : ts₂ = body := Source.arrive_eq_ok hbody
            split at h
            · next hstop => exact .emptyBinding hname hequals hbody hstop h
            · exact .binding hname hequals hbody h
      · next hequals => exact .bare (fun _ => hequals) h
  · next hname => exact .bare (fun hk => absurd hk hname) h

theorem derives_of_readStatement {statement : Statement} (hts : s.arrive ts = .ok ts)
    (hstop : ∀ token ∈ ts, token.kind ≠ .stop) (h : readStatement s ts = .done statement rest) :
    (∃ length, s.ending = .ok length) ∧ DerivesStatement ts statement := by
  cases ts with
  | nil => cases h
  | cons first after =>
    cases opening_of_readStatement h with
    | bare _ hread =>
      obtain ⟨hending, t, rfl, hd⟩ := of_readLast_eq_done hts hstop hread
      exact ⟨hending, .bare hd⟩
    | @binding equals body hname hequals hbody hread =>
      have hstop' : ∀ token ∈ body, token.kind ≠ .stop := by
        intro token hm
        exact hstop token (List.mem_cons_of_mem _ (List.mem_cons_of_mem _ hm))
      obtain ⟨hending, t, rfl, hd⟩ := of_readLast_eq_done hbody hstop' hread
      exact ⟨hending, .binding hname hequals hd⟩
    | cutOffName _ _ hfail => cases hfail
    | cutOffEquals _ _ _ hfail => cases hfail
    | emptyBinding _ _ _ _ hfail => cases hfail

theorem derivesStatement_unique {statement statement' : Statement}
    (h : DerivesStatement ts statement) (h' : DerivesStatement ts statement') :
    statement = statement' := by
  have hread := readStatement_of_derives (s := ⟨"", .ok 0⟩) rfl h
  have hread' := readStatement_of_derives (s := ⟨"", .ok 0⟩) rfl h'
  rw [hread] at hread'
  cases hread'
  rfl

section Text

variable {text : String}

theorem fault?_eq_none_iff (scan : Scan) :
    scan.fault? = none ↔ ∃ length, scan.ending = .ok length := by
  unfold Scan.fault?
  split
  · next length h => simp [h]
  · next f h => simp [h]

/-- A text is read as a statement if there is a place to start from and reading ends there. -/
theorem parse_eq_ok_iff {statement : Statement} :
    parse text = .ok statement ↔
      (Source.mk text (Scan.ofText text).ending).arrive (Scan.ofText text).tokens =
          .ok (Scan.ofText text).tokens ∧
        ∃ rest, readStatement ⟨text, (Scan.ofText text).ending⟩ (Scan.ofText text).tokens =
          .done statement rest := by
  unfold parse Cursor.ofText
  dsimp only
  cases harrive : (Source.mk text (Scan.ofText text).ending).arrive (Scan.ofText text).tokens with
  | error f => simp [Except.map]
  | ok tokens =>
    obtain rfl := Source.arrive_eq_ok harrive
    cases hread : readStatement ⟨text, (Scan.ofText text).ending⟩ (Scan.ofText text).tokens with
    | done statement' rest => simp [Except.map, hread]
    | failed fault rest => simp [Except.map, hread]

/-- A text is not read as a statement if there is no place to start from, or if reading stops. -/
theorem of_parse_eq_error {fault : Fault} (h : parse text = .error fault) :
    let s : Source := ⟨text, (Scan.ofText text).ending⟩
    (∃ f, s.arrive (Scan.ofText text).tokens = .error f ∧ fault = .lexical f) ∨
      s.arrive (Scan.ofText text).tokens = .ok (Scan.ofText text).tokens ∧
        ∃ here, readStatement s (Scan.ofText text).tokens = .failed fault here := by
  intro s
  rw [parse, Cursor.ofText] at h
  cases harrive : s.arrive (Scan.ofText text).tokens with
  | error f =>
    rw [harrive] at h
    cases h
    exact Or.inl ⟨f, rfl, rfl⟩
  | ok tokens =>
    obtain rfl := Source.arrive_eq_ok harrive
    rw [harrive] at h
    dsimp only [Except.map] at h
    split at h
    · cases h
    · next here hread =>
      cases h
      exact Or.inr ⟨rfl, here, hread⟩

theorem parse_of_derives {statement : Statement} (hfault : (Scan.ofText text).fault? = none)
    (h : DerivesStatement (Scan.ofText text).tokens statement) : parse text = .ok statement := by
  obtain ⟨length, hs⟩ := (fault?_eq_none_iff _).1 hfault
  exact parse_eq_ok_iff.2 ⟨Source.arrive_of_ending hs _, [], readStatement_of_derives hs h⟩

theorem derives_of_parse {statement : Statement} (h : parse text = .ok statement) :
    (Scan.ofText text).fault? = none ∧ DerivesStatement (Scan.ofText text).tokens statement := by
  obtain ⟨harrive, rest, hread⟩ := parse_eq_ok_iff.1 h
  rw [fault?_eq_none_iff]
  exact derives_of_readStatement harrive (Scan.kind_ne_stop 0 text.toList) hread

/-- A text is read as a statement exactly if it has no character that starts no token and its tokens
are that statement in the grammar; and tokens are not two different statements. -/
theorem parse_accepts_grammar :
    (∀ text statement, parse text = .ok statement ↔
      (Scan.ofText text).fault? = none ∧ DerivesStatement (Scan.ofText text).tokens statement) ∧
    ∀ tokens statement statement', DerivesStatement tokens statement →
      DerivesStatement tokens statement' → statement = statement' := by
  refine ⟨?_, fun _ _ _ => derivesStatement_unique⟩
  intro text statement
  constructor
  · exact derives_of_parse
  · rintro ⟨hfault, h⟩
    exact parse_of_derives hfault h

end Text

end Statement

end NormalOrder
