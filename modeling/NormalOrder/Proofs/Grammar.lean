import NormalOrder.Statement.Parser.Equations

/-!
# The grammar of statements

The grammar says which sequences of tokens are a phrase, and which term the phrase stands for:
application groups to the left, an abstraction at its end is the last argument, and every identifier
is a variable. Nothing in it says how far a phrase reaches. Reading finds exactly the statements of
the grammar, and so a sequence of tokens is a statement in one way at most.
-/

namespace NormalOrder.Statement

inductive Nonterminal
  | term
  | abstraction
  | application
  /-- A function and its arguments, without an abstraction at the end. -/
  | atoms
  | atom
deriving DecidableEq, Repr

/-- Tokens that are a phrase, with the term the phrase stands for. -/
inductive Derives : Nonterminal → List Token → Term → Prop
  | abstractionTerm {ts : List Token} {t : Term} (h : Derives .abstraction ts t) :
      Derives .term ts t
  | applicationTerm {ts : List Token} {t : Term} (h : Derives .application ts t) :
      Derives .term ts t
  | abstraction {binder param dot : Token} {ts : List Token} {b : Term}
      (hbinder : binder.kind = .lambda) (hparam : param.kind = .identifier)
      (hdot : dot.kind = .dot) (h : Derives .term ts b) :
      Derives .abstraction (binder :: param :: dot :: ts) (.lam param.value b)
  | atoms {ts : List Token} {t : Term} (h : Derives .atoms ts t) : Derives .application ts t
  | trailing {ts us : List Token} {f a : Term} (hf : Derives .atoms ts f)
      (ha : Derives .abstraction us a) : Derives .application (ts ++ us) (.app f a)
  | single {ts : List Token} {t : Term} (h : Derives .atom ts t) : Derives .atoms ts t
  | apply {ts us : List Token} {f a : Term} (hf : Derives .atoms ts f) (ha : Derives .atom us a) :
      Derives .atoms (ts ++ us) (.app f a)
  | identifier {x : Token} (hx : x.kind = .identifier) : Derives .atom [x] (.var x.value)
  | enclosed {opening closing : Token} {ts : List Token} {t : Term}
      (hopening : opening.kind = .lparen) (hclosing : closing.kind = .rparen)
      (h : Derives .term ts t) : Derives .atom (opening :: (ts ++ [closing])) t

inductive DerivesStatement : List Token → Statement → Prop
  | binding {name equals : Token} {ts : List Token} {t : Term} (hname : name.kind = .identifier)
      (hequals : equals.kind = .equals) (h : Derives .term ts t) :
      DerivesStatement (name :: equals :: ts) (.bind name.value t)
  | bare {ts : List Token} {t : Term} (h : Derives .term ts t) : DerivesStatement ts (.bare t)

def Nonterminal.starts : Nonterminal → List Token.Kind
  | term => termStart
  | abstraction => [.lambda]
  | _ => atomStart

namespace Derives

theorem exists_first {n : Nonterminal} {ts : List Token} {t : Term} (h : Derives n ts t) :
    ∃ first rest, ts = first :: rest ∧ first.kind ∈ n.starts := by
  induction h with
  | abstractionTerm _ ih =>
    obtain ⟨first, rest, rfl, hk⟩ := ih
    exact ⟨first, rest, rfl, List.mem_cons.2 (Or.inl (List.mem_singleton.1 hk))⟩
  | applicationTerm _ ih =>
    obtain ⟨first, rest, rfl, hk⟩ := ih
    exact ⟨first, rest, rfl, List.mem_cons_of_mem _ hk⟩
  | abstraction hbinder _ _ _ _ => exact ⟨_, _, rfl, List.mem_singleton.2 hbinder⟩
  | atoms _ ih => exact ih
  | trailing _ _ ihf _ =>
    obtain ⟨first, rest, rfl, hk⟩ := ihf
    exact ⟨first, _, rfl, hk⟩
  | single _ ih => exact ih
  | apply _ _ ihf _ =>
    obtain ⟨first, rest, rfl, hk⟩ := ihf
    exact ⟨first, _, rfl, hk⟩
  | identifier hx => exact ⟨_, _, rfl, by simp [Nonterminal.starts, atomStart, hx]⟩
  | enclosed hopening _ _ _ =>
    exact ⟨_, _, rfl, by simp [Nonterminal.starts, atomStart, hopening]⟩

/-- What comes first in a text is what comes first in a phrase at its start. -/
theorem currentKind_append {n : Nonterminal} {ts : List Token} {t : Term} (h : Derives n ts t)
    (s : Source) (rest : List Token) : s.currentKind (ts ++ rest) ∈ n.starts := by
  obtain ⟨first, after, rfl, hk⟩ := h.exists_first
  exact hk

theorem kind_ne_equals {n : Nonterminal} {ts : List Token} {t : Term} (h : Derives n ts t) :
    ∀ token ∈ ts, token.kind ≠ .equals := by
  induction h with
  | abstractionTerm _ ih => exact ih
  | applicationTerm _ ih => exact ih
  | abstraction hbinder hparam hdot _ ih => simpa [hbinder, hparam, hdot] using ih
  | atoms _ ih => exact ih
  | trailing _ _ ihf iha => exact List.forall_mem_append.2 ⟨ihf, iha⟩
  | single _ ih => exact ih
  | apply _ _ ihf iha => exact List.forall_mem_append.2 ⟨ihf, iha⟩
  | identifier hx => simp [hx]
  | enclosed hopening hclosing _ ih =>
    simp only [List.forall_mem_cons, List.forall_mem_append]
    exact ⟨by simp [hopening], ih, by simp [hclosing]⟩

end Derives

end NormalOrder.Statement
