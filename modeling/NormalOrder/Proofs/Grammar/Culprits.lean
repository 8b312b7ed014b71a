import NormalOrder.Proofs.Grammar.Viability
import NormalOrder.Proofs.Tiling

/-!
# Faults point at what is at fault

A violation of the grammar carries the token that it shows. That is the token at which reading
stops, or the end of the input if it stops there, or a parenthesis that is still open then. Since
every token stands in the text where it says, the span that is marked under the text is that token,
no more and no less.
-/

namespace NormalOrder

namespace Statement

section Found

variable {s : Source} {ts us here : List Token} {v : Violation}

/-- A violation found at the place `here` behind some of the tokens `ts` is about what comes first
there, or, at the end of the input, about an opening parenthesis among the tokens. -/
def Source.Finds (s : Source) (ts here : List Token) (v : Violation) : Prop :=
  ∃ token, v.position = token.start ∧ v.found = some token ∧
    (token = s.current here ∨ here = [] ∧ token ∈ ts)

theorem Source.Finds.append (us : List Token) (h : s.Finds ts here v) :
    s.Finds (us ++ ts) here v := by
  obtain ⟨token, hposition, hfound, hcurrent | ⟨hnil, hmem⟩⟩ := h
  · exact ⟨token, hposition, hfound, Or.inl hcurrent⟩
  · exact ⟨token, hposition, hfound, Or.inr ⟨hnil, List.mem_append_right us hmem⟩⟩

theorem Source.Finds.cons (first : Token) (h : s.Finds ts here v) : s.Finds (first :: ts) here v :=
  h.append [first]

theorem Source.finds_violation (s : Source) (ts here : List Token) (expected : List Token.Kind)
    (reason : Reason) : s.Finds ts here (s.violation here expected reason) :=
  ⟨s.current here, rfl, rfl, Or.inl rfl⟩

def Source.FindsIn (s : Source) (phrase : Phrase) (ts : List Token) : Prop :=
  ∀ v here, s.arrive ts = .ok ts → readTerm s phrase ts = .failed (.grammar v) here →
    s.Finds ts here v

theorem finds_expect {kind : Token.Kind} (h : s.expect kind ts = .failed (.grammar v) here) :
    s.Finds ts here v := by
  rw [Source.expect] at h
  split at h
  · split at h <;> cases h
  · cases h
    exact s.finds_violation ts _ _ _

theorem findsIn_term (habs : s.FindsIn .abstraction ts) (happ : s.FindsIn .application ts) :
    s.FindsIn .term ts := by
  intro v here hts h
  rw [readTerm_term] at h
  split at h
  · exact habs v here hts h
  · exact happ v here hts h

theorem findsIn_abstraction (hterm : ∀ ts', ts'.length < ts.length → s.FindsIn .term ts') :
    s.FindsIn .abstraction ts := by
  intro v here _ h
  rw [readTerm_abstraction] at h
  rcases Reply.andThen_eq_failed h with hfail | ⟨binder, ts₁, h₁, hparamOn⟩
  · exact finds_expect hfail
  obtain ⟨rfl, -, -⟩ := Source.of_expect_eq_done (by decide) h₁
  apply Source.Finds.cons
  rcases Reply.andThen_eq_failed hparamOn with hfail | ⟨param, ts₂, h₂, hdotOn⟩
  · exact finds_expect hfail
  obtain ⟨rfl, -, -⟩ := Source.of_expect_eq_done (by decide) h₂
  apply Source.Finds.cons
  rcases Reply.andThen_eq_failed hdotOn with hfail | ⟨dot, ts₃, h₃, hbodyOn⟩
  · exact finds_expect hfail
  obtain ⟨rfl, -, hts₃⟩ := Source.of_expect_eq_done (by decide) h₃
  apply Source.Finds.cons
  rcases Reply.andThen_eq_failed hbodyOn with hfail | ⟨b, rest, -, hdone⟩
  · have hlt : ts₃.length < (binder :: param :: dot :: ts₃).length := by
      simp only [List.length_cons]
      omega
    exact hterm ts₃ hlt v here hts₃ hfail
  · cases hdone

/-- A violation found in the arguments behind an atom is found behind the tokens of the atom. -/
theorem finds_arguments {f g : Term} {ts₁ : List Token} (hts : s.arrive ts = .ok ts)
    (harguments : ∀ f ts', ts'.length < ts.length → s.FindsIn (.arguments f) ts')
    (hatom : readTerm s .atom ts = .done f ts₁)
    (h : readTerm s (.arguments g) ts₁ = .failed (.grammar v) here) : s.Finds ts here v := by
  have hlt : ts₁.length < ts.length := length_of_readTerm hatom
  obtain ⟨⟨us, rfl, -⟩, hts₁⟩ := sound_readTerm s .atom ts f ts₁ hts hatom
  exact (harguments g ts₁ hlt v here hts₁ h).append us

theorem findsIn_application (hatom : s.FindsIn .atom ts)
    (harguments : ∀ f ts', ts'.length < ts.length → s.FindsIn (.arguments f) ts') :
    s.FindsIn .application ts := by
  intro v here hts h
  rw [readTerm_application] at h
  rcases Reply.andThen_eq_failed h with hfail | ⟨f, ts₁, hf, hnext⟩
  · exact hatom v here hts hfail
  · exact finds_arguments hts harguments hf hnext

theorem findsIn_arguments {f : Term} (habs : s.FindsIn .abstraction ts) (hatom : s.FindsIn .atom ts)
    (harguments : ∀ f ts', ts'.length < ts.length → s.FindsIn (.arguments f) ts') :
    s.FindsIn (.arguments f) ts := by
  intro v here hts h
  rw [readTerm_arguments] at h
  split at h
  · rcases Reply.andThen_eq_failed h with hfail | ⟨a, ts₁, -, hdone⟩
    · exact habs v here hts hfail
    · cases hdone
  · split at h
    · rcases Reply.andThen_eq_failed h with hfail | ⟨a, ts₁, ha, hnext⟩
      · exact hatom v here hts hfail
      · exact finds_arguments hts harguments ha hnext
    · cases h

theorem finds_readEnclosed {opening : Token} (hterm : s.FindsIn .term ts)
    (hts : s.arrive ts = .ok ts)
    (h : readEnclosed s ts opening = .failed (.grammar v) here) :
    s.Finds (opening :: ts) here v := by
  rw [readEnclosed] at h
  split at h
  · cases h
    exact s.finds_violation _ _ _ _
  · rcases Reply.andThen_eq_failed h with hfail | ⟨t, ts₁, -, hclose⟩
    · exact (hterm v here hts hfail).cons opening
    cases ts₁ with
    | nil =>
      cases hclose
      exact ⟨opening, rfl, rfl, Or.inr ⟨rfl, List.mem_cons_self⟩⟩
    | cons closing after =>
      dsimp only at hclose
      split at hclose
      · split at hclose <;> cases hclose
      · cases hclose
        exact s.finds_violation _ _ _ _

theorem findsIn_atom (hterm : ∀ ts', ts'.length < ts.length → s.FindsIn .term ts') :
    s.FindsIn .atom ts := by
  intro v here _ h
  cases ts with
  | nil =>
    rw [readTerm_atom_nil] at h
    cases h
    exact s.finds_violation _ _ _ _
  | cons first after =>
    rw [readTerm_atom_cons] at h
    split at h
    · split at h <;> cases h
    · split at h
      · cases h
      · next harrive =>
        obtain rfl := Source.arrive_eq_ok harrive
        exact finds_readEnclosed (hterm _ (Nat.lt_succ_self _)) harrive h
    · cases h
      exact s.finds_violation _ _ _ _
    · cases h
      exact s.finds_violation _ _ _ _

theorem findsIn_readTerm (s : Source) (phrase : Phrase) (ts : List Token) : s.FindsIn phrase ts :=
  Phrase.induction (fun _ => findsIn_term) (fun _ => findsIn_abstraction)
    (fun _ => findsIn_application) (fun _ _ => findsIn_arguments) (fun _ => findsIn_atom) phrase ts

theorem finds_readLast {make : Term → Statement} (hts : s.arrive ts = .ok ts)
    (h : readLast s make ts = .failed (.grammar v) here) : s.Finds ts here v := by
  rcases Reply.andThen_eq_failed h with hfail | ⟨t, ts₁, ht, hfinish⟩
  · exact findsIn_readTerm s .term ts v here hts hfail
  rcases Reply.andThen_eq_failed hfinish with hfail | ⟨u, ts₂, -, hdone⟩
  · obtain ⟨-, rfl, reason, hv⟩ := of_finish_eq_failed hfail
    cases hv
    exact s.finds_violation _ _ _ _
  · cases hdone

/-- A violation found in a statement shows a token of it, unless the statement has none. -/
theorem finds_readStatement (hts : s.arrive ts = .ok ts)
    (h : readStatement s ts = .failed (.grammar v) here) :
    ts = [] ∧ v = ⟨.emptyStatement, 0, none, termStart⟩ ∨ ts ≠ [] ∧ s.Finds ts here v := by
  cases ts with
  | nil =>
    cases h
    exact Or.inl ⟨rfl, rfl⟩
  | cons first after =>
    refine Or.inr ⟨List.cons_ne_nil first after, ?_⟩
    cases opening_of_readStatement h with
    | bare _ hread => exact finds_readLast hts hread
    | emptyBinding _ _ _ _ hfail =>
      cases hfail
      exact s.finds_violation _ _ _ _
    | binding _ _ hbody hread => exact ((finds_readLast hbody hread).cons _).cons first
    | cutOffName _ _ hfail => cases hfail
    | cutOffEquals _ _ _ hfail => cases hfail

end Found

end Statement

namespace Diagnostic

variable {d : Diagnostic} {text word : String} {position : Nat}

def position? (d : Diagnostic) : Option Int :=
  match d.origin with
  | .general => none
  | .character _ position => some position
  | .grammar position _ _ => some position

/-- The diagnostic is about a position of the text and shows the text with a mark under it: a caret
at the start of the span, and tildes under the rest of it. -/
structure Shows (d : Diagnostic) (text : String) : Prop where
  expr : d.expr = text
  position : d.position? = some d.start
  nonneg : 0 ≤ d.start
  within : d.start ≤ text.length
  mark : ∀ ink, (d.underlined ink).render false =
    "  " ++ text ++ "\n" ++ "  " ++ String.ofList (List.replicate d.start.toNat ' ') ++ "^" ++
      String.ofList (List.replicate (d.stop - d.start - 1).toNat '~')

/-- The span of the diagnostic is the word that stands at a position of the text. -/
structure Marks (d : Diagnostic) (text word : String) (position : Nat) : Prop where
  start : d.start = position
  stop : d.stop = d.start + word.length
  slice : Text.slice text d.start d.stop = word

theorem Marks.within (h : d.Marks text word position) (hne : word ≠ "") :
    d.start ≤ text.length := by
  have hslice := h.slice
  rw [h.stop, h.start] at hslice
  obtain ⟨front, rest, htext, hfront⟩ := Text.exists_append_of_slice hne hslice
  have hlength : text.length = front.length + word.length + rest.length := by
    simp only [← String.length_toList, htext, List.length_append]
  rw [h.start]
  omega

theorem render_underlined (hstart : 0 ≤ d.start) (hstop : d.start < d.stop) (ink : Text.Ink) :
    (d.underlined ink).render false =
      "  " ++ d.expr ++ "\n" ++ "  " ++ String.ofList (List.replicate d.start.toNat ' ') ++ "^" ++
        String.ofList (List.replicate (d.stop - d.start - 1).toNat '~') := by
  have hmark : d.markStop = d.stop := by
    rw [markStop]
    omega
  have hplace : Text.place d.expr.length d.start ≤ Text.place d.expr.length d.stop := by
    simp only [Text.place]
    split <;> split <;> omega
  have hexpr := Text.sliceTo_append_slice_append_sliceFrom d.expr d.start d.stop hplace
  have hnewline : "\n  " = "\n" ++ "  " := rfl
  conv_rhs => rw [← hexpr]
  rw [Text.Styled.render_false, underlined, hmark, hnewline]
  simp [Text.Styled.content, Text.plain, Text.inked, String.join, repeated, String.append_assoc]

end Diagnostic

namespace Statement

variable {text : String} {v : Violation} {token : Token}

/-- What the diagnostic of a fault marks in the text. -/
inductive Fault.Marked (text : String) (d : Diagnostic) : Fault → Prop
  /-- The character that starts no token. -/
  | character {f : LexFault} (hfault : (Scan.ofText text).fault? = some f)
      (hmarks : d.Marks text f.char.toString f.position) : Marked text d (.lexical f)
  /-- The first token with which no statement goes on. -/
  | token {v : Violation} {front after : List Token} {token : Token}
      (htokens : (Scan.ofText text).tokens = front ++ token :: after) (hfront : Viable front)
      (htoken : ¬Viable (front ++ [token])) (hfound : v.found = some token)
      (hmarks : d.Marks text token.value token.start) : Marked text d (.grammar v)
  /-- The innermost open parenthesis, in a text that only lacks closing ones. -/
  | unclosed {v : Violation} {opening : Token} {outer : List Token}
      (hfault : (Scan.ofText text).fault? = none) (hclosable : Closable (Scan.ofText text).tokens)
      (hunclosed : Statement.unclosed (Scan.ofText text).tokens = opening :: outer)
      (hfound : v.found = some opening) (hmarks : d.Marks text "(" opening.start) :
      Marked text d (.grammar v)
  /-- The first equals sign of a binding that should have been a term. -/
  | equals {v : Violation} {name : String} {t : Term} {token : Token}
      (hparse : parse text = .ok (.bind name t)) (hreason : v.reason = .notATerm)
      (hfirst : (Scan.ofText text).tokens.find? (·.kind = .equals) = some token)
      (hmarks : d.Marks text "=" token.start) : Marked text d (.grammar v)
  /-- The end of a text that lacks more than closing parentheses. -/
  | ending {v : Violation} (hfault : (Scan.ofText text).fault? = none)
      (hviable : Viable (Scan.ofText text).tokens) (hclosable : ¬Closable (Scan.ofText text).tokens)
      (hfound : v.found = some (.atEnd text.length)) (hstart : d.start = text.length)
      (hstop : d.stop = d.start + 1) : Marked text d (.grammar v)
  /-- The start of a text without tokens. -/
  | blank {v : Violation} (hblank : Text.isBlankText text = true) (hstart : d.start = 0)
      (hstop : d.stop = 1) : Marked text d (.grammar v)

theorem Violation.stop_diagnostic (v : Violation) (text : String) :
    (v.diagnostic text).stop =
      v.position + max 1 ((v.found.map (·.value.length)).getD 1 : Nat) := by
  simp only [diagnostic, Diagnostic.violation, Diagnostic.spanStop]
  split <;> omega

theorem stop_lexical (f : LexFault) (text : String) :
    ((Fault.lexical f).diagnostic text).stop = f.position + 1 := by
  simp only [Fault.diagnostic, Diagnostic.unrecognized, Diagnostic.spanStop]
  split <;> omega

/-- A violation with the width of a token marks this token. -/
theorem marks_violation (htoken : token.StandsIn text) (hposition : v.position = token.start)
    (hwidth : (v.found.map (·.value.length)).getD 1 = token.value.length) :
    (v.diagnostic text).Marks text token.value token.start := by
  have hlt := htoken.start_lt_finish
  have hstart : (v.diagnostic text).start = token.start := congrArg Nat.cast hposition
  have hstop : (v.diagnostic text).stop = token.finish := by
    rw [v.stop_diagnostic, hwidth, hposition]
    rw [Token.finish] at hlt ⊢
    omega
  refine ⟨hstart, ?_, ?_⟩
  · rw [hstart, hstop, Token.finish]
    omega
  · rw [hstart, hstop]
    exact htoken.slice_eq

theorem marks_lexical {f : LexFault} (h : (Scan.ofText text).ending = .error f) :
    ((Fault.lexical f).diagnostic text).Marks text f.char.toString f.position := by
  obtain ⟨before, after, htext, hposition, -⟩ := Scan.ofChars_before_fault h
  rw [Nat.zero_add] at hposition
  have hword : f.char.toString.length = 1 := String.length_singleton
  have hstop : ((Fault.lexical f).diagnostic text).stop = f.position + f.char.toString.length := by
    rw [stop_lexical, hword]
    rfl
  have hcut : text.toList = before ++ f.char.toString.toList ++ after := by
    rw [htext]
    simp [Char.toString]
  refine ⟨rfl, hstop, ?_⟩
  rw [hstop]
  change Text.slice text f.position _ = _
  rw [hposition]
  exact Text.slice_of_append hcut

theorem Fault.shows_diagnostic {fault : Fault} (h : (fault.diagnostic text).start ≤ text.length) :
    (fault.diagnostic text).Shows text := by
  cases fault with
  | lexical f =>
    have hstop := stop_lexical f text
    refine ⟨rfl, rfl, Int.natCast_nonneg f.position, h, ?_⟩
    refine Diagnostic.render_underlined (Int.natCast_nonneg f.position) ?_
    rw [hstop]
    exact Int.lt_succ f.position
  | grammar v =>
    have hstop := v.stop_diagnostic text
    refine ⟨rfl, rfl, Int.natCast_nonneg v.position, h, ?_⟩
    refine Diagnostic.render_underlined (Int.natCast_nonneg v.position) ?_
    change (v.position : Int) < (v.diagnostic text).stop
    rw [hstop]
    omega

/-- Whatever is marked starts within the text. -/
theorem Fault.Marked.within {d : Diagnostic} {fault : Fault} (h : fault.Marked text d) :
    d.start ≤ text.length := by
  cases h with
  | character _ hmarks => exact hmarks.within (by simp [Char.toString])
  | @token _ front after token htokens _ _ _ hmarks =>
    have hmem : token ∈ (Scan.ofText text).tokens := by simp [htokens]
    exact hmarks.within ((Scan.tiles_ofText text).stands token hmem).nonempty
  | unclosed _ _ _ _ hmarks => exact hmarks.within (by decide)
  | equals _ _ _ hmarks => exact hmarks.within (by decide)
  | ending _ _ _ _ hstart _ => omega
  | blank _ hstart _ => omega

theorem mem_foldl_openAfter {ts opened : List Token} (h : token ∈ ts.foldl openAfter opened) :
    token ∈ opened ∨ token ∈ ts ∧ token.kind = .lparen := by
  induction ts generalizing opened with
  | nil => exact Or.inl h
  | cons first ts ih =>
    rcases ih h with hopened | ⟨hmem, hkind⟩
    · rw [openAfter] at hopened
      split at hopened
      · next hkind =>
        rcases List.mem_cons.1 hopened with rfl | hopened
        · exact Or.inr ⟨List.mem_cons_self, hkind⟩
        · exact Or.inl hopened
      · exact Or.inl (List.mem_of_mem_tail hopened)
      · exact Or.inl hopened
    · exact Or.inr ⟨List.mem_cons_of_mem first hmem, hkind⟩

theorem mem_unclosed {ts : List Token} (h : token ∈ unclosed ts) :
    token ∈ ts ∧ token.kind = .lparen := by
  rcases mem_foldl_openAfter h with hnil | h
  · cases hnil
  · exact h

theorem isBlankText_of_tokens (hfault : (Scan.ofText text).fault? = none)
    (htokens : (Scan.ofText text).tokens = []) : Text.isBlankText text = true := by
  have htiles := Scan.tiles_ofText text
  refine List.all_eq_true.2 fun c hc => ?_
  obtain ⟨i, hi⟩ := List.mem_iff_getElem?.1 hc
  have hreach : i < (Scan.ofText text).reach := by
    rw [htiles.reach_eq hfault]
    exact Text.lt_length_of_getElem? hi
  refine htiles.blank i c (Nat.zero_le i) hreach hi ?_
  intro t ht
  rw [htokens] at ht
  cases ht

section Marked

/-- A token of a kind that has one spelling only is spelled so. -/
theorem value_of_symbol {kind : Token.Kind} {c : Char} (htoken : token.StandsIn text)
    (hkind : token.kind = kind) (hspells : kind.Spells = fun cs => cs = [c]) :
    token.value = c.toString := by
  have hvalue := htoken.spells
  rw [hkind, hspells] at hvalue
  refine String.toList_injective ?_
  rw [hvalue]
  simp [Char.toString]

/-- A violation found at a token marks it, since no statement goes on with this token. -/
theorem marked_at_token {s : Source} {after : List Token} (hfound : v.found = some token)
    (hstops : s.StopsAt .start (Scan.ofText text).tokens (token :: after) (.grammar v)) :
    (Fault.grammar v).Marked text (v.diagnostic text) := by
  obtain ⟨front, q, htokens, hwalk, hnext, hposition⟩ := hstops
  have hmem : token ∈ (Scan.ofText text).tokens := by simp [htokens]
  have hnot : ¬Viable (front ++ [token]) := by
    intro hviable
    obtain ⟨r, hr⟩ := viable_iff.1 hviable
    rw [Progress.walk_append_of_eq hwalk, Progress.walk, hnext] at hr
    cases hr
  exact .token htokens (viable_iff.2 ⟨q, hwalk⟩) hnot hfound
    (marks_violation ((Scan.tiles_ofText text).stands token hmem) hposition (by simp [hfound]))

theorem marked_at_opening {opening : Token} {outer : List Token}
    (hfault : (Scan.ofText text).fault? = none) (hclosable : Closable (Scan.ofText text).tokens)
    (hunclosed : unclosed (Scan.ofText text).tokens = opening :: outer)
    (hposition : v.position = opening.start) (hfound : v.found = some opening) :
    (Fault.grammar v).Marked text (v.diagnostic text) := by
  have hmem : opening ∈ unclosed (Scan.ofText text).tokens := by simp [hunclosed]
  obtain ⟨hopening, hkind⟩ := mem_unclosed hmem
  have hstands := (Scan.tiles_ofText text).stands opening hopening
  have hvalue : opening.value = "(" := value_of_symbol hstands hkind rfl
  have hmarks := marks_violation hstands hposition (by simp [hfound])
  rw [hvalue] at hmarks
  exact .unclosed hfault hclosable hunclosed hfound hmarks

/-- A violation found at the end of the input marks the innermost open parenthesis, or the end. -/
theorem marked_at_end {s : Source} (hs : s.ending = (Scan.ofText text).ending)
    (hne : (Scan.ofText text).tokens ≠ []) (hfinds : s.Finds (Scan.ofText text).tokens [] v)
    (hstops : s.StopsAt .start (Scan.ofText text).tokens [] (.grammar v)) :
    (Fault.grammar v).Marked text (v.diagnostic text) := by
  have htiles := Scan.tiles_ofText text
  obtain ⟨us, q, htokens, hwalk, length, hlength, hshort⟩ := hstops
  rw [List.append_nil] at htokens
  subst htokens
  have hfault : (Scan.ofText text).fault? = none :=
    (fault?_eq_none_iff _).2 ⟨length, hs ▸ hlength⟩
  have hending : s.ending = .ok text.length := hs ▸ htiles.ending_eq_ok hfault
  cases hlength.symm.trans hending
  obtain ⟨token, hposition, hfound, htoken⟩ := hfinds
  have hcurrent : s.current [] = .atEnd text.length := by
    rw [Source.current, Source.finalToken, hending]
  rw [hcurrent] at htoken
  obtain ⟨-, hopen, hmore⟩ := position_of_shortfall hwalk hshort
  by_cases hclosable : Closable (Scan.ofText text).tokens
  · obtain ⟨opening, outer, hunclosed, hstart⟩ := hopen hclosable
    have hmem : opening ∈ unclosed (Scan.ofText text).tokens := by simp [hunclosed]
    have hstands := htiles.stands opening (mem_unclosed hmem).1
    have hlt := hstands.start_lt_length
    -- The token that is shown and the one that is still open start at the same place.
    have hsame : token = opening := by
      rcases htoken with rfl | ⟨-, hmem⟩
      · rw [hposition] at hstart
        exact absurd hstart.symm (Nat.ne_of_lt hlt)
      · exact (htiles.stands token hmem).unique hstands (hposition.symm.trans hstart)
    exact marked_at_opening hfault hclosable hunclosed hstart (hsame ▸ hfound)
  · have hlength := hmore hne hclosable
    rcases htoken with rfl | ⟨-, hmem⟩
    · refine .ending hfault (viable_iff.2 ⟨q, hwalk⟩) hclosable hfound ?_ ?_
      · exact congrArg Nat.cast hlength
      · rw [v.stop_diagnostic, hfound]
        rfl
    · have hlt := (htiles.stands token hmem).start_lt_length
      omega

theorem marked_of_parse {fault : Fault} (h : parse text = .error fault) :
    fault.Marked text (fault.diagnostic text) := by
  cases fault with
  | lexical f =>
    obtain ⟨here, hending, -⟩ := stopsAt_parse h
    exact .character (Scan.fault?_eq_some.2 hending) (marks_lexical hending)
  | grammar v =>
    obtain ⟨f, -, hf⟩ | ⟨harrive, here, hread⟩ := of_parse_eq_error h
    · cases hf
    have hstops := stopsAt_readStatement harrive hread
    rcases finds_readStatement harrive hread with ⟨hnil, rfl⟩ | ⟨hne, hfinds⟩
    · rw [hnil] at harrive
      have hfault := (fault?_eq_none_iff _).2 (Source.ending_of_arrive_nil harrive)
      exact .blank (isBlankText_of_tokens hfault hnil) rfl rfl
    · cases here with
      | nil => exact marked_at_end rfl hne hfinds hstops
      | cons next after =>
        obtain ⟨token, -, hfound, rfl | ⟨hnil, -⟩⟩ := hfinds
        · exact marked_at_token hfound hstops
        · cases hnil

/-- In a text without a fault the first occurrence of a symbol is a token. -/
theorem exists_first_symbol {c : Char} {kind : Token.Kind}
    (hfault : (Scan.ofText text).fault? = none)
    (hkind : Token.symbol? c = some kind) (hmem : c ∈ text.toList) :
    ∃ token ∈ (Scan.ofText text).tokens,
      token.start = (text.toList.takeWhile (· ≠ c)).length ∧ token.kind = kind := by
  have htiles := Scan.tiles_ofText text
  obtain ⟨before, after, hcut, hbefore⟩ := List.eq_append_cons_of_mem hmem
  have hwhile : text.toList.takeWhile (· ≠ c) = before := by
    rw [hcut, List.takeWhile_append_of_pos (by simpa [← List.forall_mem_ne'] using hbefore)]
    simp
  have hat : text.toList[before.length]? = some c := by simp [hcut]
  have hreach : before.length < (Scan.ofText text).reach := by
    rw [htiles.reach_eq hfault]
    exact Text.lt_length_of_getElem? hat
  rw [hwhile]
  exact htiles.exists_symbol hreach hat hkind

/-- The first equals sign of a binding is the token behind its name. -/
theorem exists_equals {name : String} {t : Term} (h : parse text = .ok (.bind name t)) :
    ∃ token, (Scan.ofText text).tokens.find? (·.kind = .equals) = some token ∧
      token.StandsIn text ∧ token.kind = .equals ∧
      token.start = (text.toList.takeWhile (· ≠ '=')).length := by
  have htiles := Scan.tiles_ofText text
  obtain ⟨hfault, hd⟩ := derives_of_parse h
  generalize htokens : (Scan.ofText text).tokens = tokens at hd
  cases hd with
  | @binding first equals ts t hfirst hequals hterm =>
    have hstands : equals.StandsIn text := htiles.stands equals (by simp [htokens])
    obtain ⟨front, rest, htext, -, -⟩ := hstands.exists_append
    have hvalue : equals.value = "=" := value_of_symbol hstands hequals rfl
    have hmem : '=' ∈ text.toList := by simp [htext, hvalue]
    obtain ⟨token, htoken, hstart, hkind⟩ := exists_first_symbol hfault rfl hmem
    -- Behind the name and its equals sign stands a term, which has no equals sign in it.
    have hsame : token = equals := by
      rw [htokens] at htoken
      rcases List.mem_cons.1 htoken with rfl | htoken
      · cases hfirst.symm.trans hkind
      rcases List.mem_cons.1 htoken with rfl | htoken
      · rfl
      · exact absurd hkind (hterm.kind_ne_equals token htoken)
    refine ⟨equals, ?_, hstands, hequals, ?_⟩
    · simp [hfirst, hequals]
    · rw [← hsame, hstart]

/-- A text that cannot be read as a term cannot be read at all or is a binding. -/
theorem parseTerm_eq_error {fault : Fault} (h : parseTerm text = .error fault) :
    parse text = .error fault ∨ ∃ name t, parse text = .ok (.bind name t) ∧
      fault = .grammar ⟨.notATerm, (text.toList.takeWhile (· ≠ '=')).length, none, [.stop]⟩ := by
  rw [parseTerm] at h
  split at h
  · next hparse =>
    cases h
    exact Or.inl hparse
  · cases h
  · next name t hparse =>
    cases h
    exact Or.inr ⟨name, t, hparse, rfl⟩

theorem marked_of_parseTerm {fault : Fault} (h : parseTerm text = .error fault) :
    fault.Marked text (fault.diagnostic text) := by
  rcases parseTerm_eq_error h with hparse | ⟨name, t, hparse, rfl⟩
  · exact marked_of_parse hparse
  · obtain ⟨token, hfirst, hstands, hkind, hstart⟩ := exists_equals hparse
    have hvalue : token.value = "=" := value_of_symbol hstands hkind rfl
    refine .equals hparse rfl hfirst ?_
    rw [← hvalue]
    exact marks_violation hstands hstart.symm (by rw [hvalue]; rfl)

/-- A text that cannot be read as a statement or as a term is shown with a mark under what is at
fault, no more and no less. -/
theorem diagnostic_marks_culprit {fault : Fault}
    (h : parse text = .error fault ∨ parseTerm text = .error fault) :
    (fault.diagnostic text).Shows text ∧ fault.Marked text (fault.diagnostic text) := by
  have hmarked : fault.Marked text (fault.diagnostic text) := by
    rcases h with hparse | hparse
    · exact marked_of_parse hparse
    · exact marked_of_parseTerm hparse
  exact ⟨Fault.shows_diagnostic hmarked.within, hmarked⟩

/-- Of a binding that should have been a term the first equals sign is marked, not the name in front
of it with its prime. -/
theorem diagnostic_marks_culprit_binding :
    let text := " f\x27 = λx. x"
    ∃ fault, parseTerm text = .error fault ∧ (fault.diagnostic text).start = 4 ∧
      (fault.diagnostic text).Shows text ∧ fault.Marked text (fault.diagnostic text) := by
  intro text
  have h : parseTerm text = .error (.grammar ⟨.notATerm, 4, none, [.stop]⟩) := by
    decide +kernel
  exact ⟨_, h, rfl, diagnostic_marks_culprit (Or.inr h)⟩

end Marked

end Statement

end NormalOrder
