import NormalOrder.Proofs.FreshName
import NormalOrder.Proofs.Grammar.Parsing
import NormalOrder.Proofs.Roster
import NormalOrder.Proofs.Step

/-!
# Names stay identifiers

All names of a term that was read are identifiers. Reduction makes up no names but fresh ones, which
have every property that is handed on from a name to a fresh name for it; to be an identifier is
one.
-/

namespace NormalOrder

namespace Term

theorem names_protect (names : List String) (t : Term) : (t.protect names).names = t.names := by
  induction t generalizing names with
  | var x =>
    rw [protect]
    split <;> rfl
  | ref x => rfl
  | lam x b ih => simp only [protect, Term.names, ih]
  | app f a ihf iha => simp only [protect, Term.names, ihf, iha]

section Fresh

variable {p : String → Prop} (hfresh : ∀ name avoid, p name → p (freshName name avoid))

include hfresh

/-- Substitution keeps a property of names that fresh names inherit. -/
theorem Substitutes.forall_names {t s u : Term} {x : String} (h : Substitutes t x s u)
    (ht : ∀ y ∈ t.names, p y) (hs : ∀ y ∈ s.names, p y) : ∀ y ∈ u.names, p y := by
  induction h with
  | replaced x s => exact hs
  | other s hy => exact ht
  | reference x s y => exact ht
  | application _ _ ihf iha =>
    obtain ⟨hf, ha⟩ := List.forall_mem_append.1 ht
    exact List.forall_mem_append.2 ⟨ihf hf hs, iha ha hs⟩
  | shadowed x s b => exact ht
  | absent s hp hx => exact ht
  | @renamed x q r s b b' c _ _ _ hr _ _ ihb ihc =>
    obtain ⟨hq, hb⟩ := List.forall_mem_cons.1 ht
    have hnew : p r := hr ▸ hfresh q _ hq
    have hvar : ∀ y ∈ (var r).names, p y := by
      intro y hy
      obtain rfl := List.mem_singleton.1 hy
      exact hnew
    exact List.forall_mem_cons.2 ⟨hnew, ihc (ihb hb hvar) hs⟩
  | inside _ _ _ _ ihc =>
    obtain ⟨hq, hb⟩ := List.forall_mem_cons.1 ht
    exact List.forall_mem_cons.2 ⟨hq, ihc hb hs⟩

theorem forall_names_substitute {t s : Term} (x : String) (ht : ∀ y ∈ t.names, p y)
    (hs : ∀ y ∈ s.names, p y) : ∀ y ∈ (t.substitute x s).names, p y :=
  (substitutes_substitute t x s).forall_names hfresh ht hs

end Fresh

end Term

namespace Reduction

variable {env : Environment} {p : String → Prop}
  (hfresh : ∀ name avoid, p name → p (freshName name avoid))
  (henv : ∀ e ∈ env.entries, ∀ x ∈ e.2.names, p x)

include henv in
theorem forall_names_expand {bound : List String} {x : String} {t : Term}
    (h : expand env bound x = some t) : ∀ y ∈ t.names, p y := by
  obtain ⟨d, hd, rfl⟩ := Option.map_eq_some_iff.1 h
  rw [Term.names_protect]
  exact henv (x, d) (Roster.find?_eq_some_iff.1 hd)

include hfresh henv

/-- A step keeps a property of names that fresh names inherit and the names of definitions have. -/
theorem StepsTo.forall_names {bound : List String} {t u : Term} (h : StepsTo env bound t u)
    (ht : ∀ y ∈ t.names, p y) : ∀ y ∈ u.names, p y := by
  induction h with
  | unbound _ hd => exact forall_names_expand henv hd
  | reference hd => exact forall_names_expand henv hd
  | body _ ih =>
    obtain ⟨hx, hb⟩ := List.forall_mem_cons.1 ht
    exact List.forall_mem_cons.2 ⟨hx, ih hb⟩
  | contraction _ x b a =>
    obtain ⟨hf, ha⟩ := List.forall_mem_append.1 ht
    exact Term.forall_names_substitute hfresh x (List.forall_mem_cons.1 hf).2 ha
  | function a _ _ ih =>
    obtain ⟨hf, ha⟩ := List.forall_mem_append.1 ht
    exact List.forall_mem_append.2 ⟨ih hf, ha⟩
  | argument _ _ _ ih =>
    obtain ⟨hf, ha⟩ := List.forall_mem_append.1 ht
    exact List.forall_mem_append.2 ⟨hf, ih ha⟩

end Reduction

theorem Token.symbol?_ne_identifier (c : Char) : symbol? c ≠ some .identifier := by
  unfold symbol?
  split <;> simp

/-- The identifiers among the tokens of a text are words. -/
theorem Scan.isIdentifier_value (pos : Nat) (cs : List Char) :
    ∀ token ∈ (ofChars pos cs).tokens, token.kind = .identifier →
      Token.isIdentifier token.value = true := by
  fun_induction ofChars pos cs with
  | case1 pos => simp
  | case2 pos c rest hblank ih => exact ih
  | case3 pos c rest hblank kind hkind ih =>
    refine List.forall_mem_cons.2 ⟨?_, ih⟩
    rintro rfl
    exact absurd hkind (Token.symbol?_ne_identifier c)
  | case4 pos c rest hblank hkind hstart word ih =>
    refine List.forall_mem_cons.2 ⟨fun _ => ?_, ih⟩
    have hword : Token.isWord word = true := by simp [word, Token.isWord, hstart]
    rw [Token.isIdentifier, String.toList_ofList, hword]
  | case5 pos c rest hblank hkind hstart => simp

/-- A term such as a text is read as: without references, and with identifiers for its names. -/
structure Term.Plain (t : Term) : Prop where
  references : t.references = []
  names : ∀ x ∈ t.names, Token.isIdentifier x = true

theorem Term.Plain.app {f a : Term} (hf : f.Plain) (ha : a.Plain) : (Term.app f a).Plain := by
  refine ⟨?_, List.forall_mem_append.2 ⟨hf.names, ha.names⟩⟩
  rw [Term.references, hf.references, ha.references, List.append_nil]

namespace Statement

theorem Derives.plain {n : Nonterminal} {ts : List Token} {t : Term} (h : Derives n ts t)
    (hts : ∀ token ∈ ts, token.kind = .identifier → Token.isIdentifier token.value = true) :
    t.Plain := by
  induction h with
  | abstractionTerm _ ih => exact ih hts
  | applicationTerm _ ih => exact ih hts
  | abstraction _ hparam _ _ ih =>
    simp only [List.forall_mem_cons] at hts
    obtain ⟨-, hname, -, hbody⟩ := hts
    have hb := ih hbody
    exact ⟨hb.references, List.forall_mem_cons.2 ⟨hname hparam, hb.names⟩⟩
  | atoms _ ih => exact ih hts
  | trailing _ _ ihf iha =>
    obtain ⟨hf, ha⟩ := List.forall_mem_append.1 hts
    exact (ihf hf).app (iha ha)
  | single _ ih => exact ih hts
  | apply _ _ ihf iha =>
    obtain ⟨hf, ha⟩ := List.forall_mem_append.1 hts
    exact (ihf hf).app (iha ha)
  | identifier hx => exact ⟨rfl, List.forall_mem_singleton.2 (hts _ List.mem_cons_self hx)⟩
  | enclosed _ _ _ ih =>
    simp only [List.forall_mem_cons, List.forall_mem_append] at hts
    exact ih hts.2.1

theorem DerivesStatement.plain {ts : List Token} {s : Statement} (h : DerivesStatement ts s)
    (hts : ∀ token ∈ ts, token.kind = .identifier → Token.isIdentifier token.value = true) :
    s.term.Plain ∧ ∀ name t, s = .bind name t → Token.isIdentifier name = true := by
  cases h with
  | binding hname _ hd =>
    simp only [List.forall_mem_cons] at hts
    refine ⟨hd.plain hts.2.2, ?_⟩
    rintro name t ⟨⟩
    exact hts.1 hname
  | bare hd =>
    refine ⟨hd.plain hts, ?_⟩
    rintro name t ⟨⟩

theorem plain_of_parse {text : String} {s : Statement} (h : parse text = .ok s) :
    s.term.Plain ∧ ∀ name t, s = .bind name t → Token.isIdentifier name = true :=
  (derives_of_parse h).2.plain (Scan.isIdentifier_value 0 text.toList)

end Statement

end NormalOrder
