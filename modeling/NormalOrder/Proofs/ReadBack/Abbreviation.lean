import NormalOrder.Proofs.ReadBack

/-!
# Reading back leaves nothing to abbreviate

A part of a term can be written as the name of a binding if it is the definition up to the names of
bound variables, that is a closed abstraction, and no binder around the part hides the name. Reading
back writes every outermost such part as the first of these names and leaves the rest as it is. What
comes out holds no such part any more: an abstraction with a name put into it refers to a binding,
while the definitions that could be used refer to none.
-/

namespace NormalOrder

/-- The parts of a term below some binders, each with the binders around it, the innermost first. -/
def Term.parts (bound : List String) : Term → List (List String × Term)
  | .var x => [(bound, .var x)]
  | .ref x => [(bound, .ref x)]
  | .lam x b => (bound, .lam x b) :: b.parts (x :: bound)
  | .app f a => (bound, .app f a) :: (f.parts bound ++ a.parts bound)

namespace Environment

/-- The binding can stand for a part below some binders: it is a closed abstraction and the part up
to the names of bound variables, and its name is not hidden. -/
structure Usable (bound : List String) (s : Term) (e : String × Term) : Prop where
  abstraction : ∃ x b, e.2 = .lam x b
  closed : e.2.free = []
  visible : e.1 ∉ bound
  alphaEq : s.alphaEq e.2 = true

def FirstUsable (env : Environment) (bound : List String) (s : Term) (name : String) : Prop :=
  ∃ before d after, env.entries = before ++ (name, d) :: after ∧ Usable bound s (name, d) ∧
    ∀ e ∈ before, ¬Usable bound s e

/-- The second term is the first one with names in place of the outermost parts for which a binding
can stand. -/
inductive Abbreviates (env : Environment) : List String → Term → Term → Prop
  | var (bound : List String) (x : String) : Abbreviates env bound (.var x) (.var x)
  | ref (bound : List String) (x : String) : Abbreviates env bound (.ref x) (.ref x)
  | name {bound : List String} {s : Term} {name : String} (h : env.FirstUsable bound s name) :
    Abbreviates env bound s (.ref name)
  | lam {bound : List String} {x : String} {b b' : Term}
    (hnone : ∀ e ∈ env.entries, ¬Usable bound (.lam x b) e)
    (hb : Abbreviates env (x :: bound) b b') :
    Abbreviates env bound (.lam x b) (.lam x b')
  | app {bound : List String} {f f' a a' : Term} (hf : Abbreviates env bound f f')
    (ha : Abbreviates env bound a a') : Abbreviates env bound (.app f a) (.app f' a')

variable {env : Environment} {bound : List String} {s t u : Term} {e : String × Term}

namespace Usable

/-- Only abstractions are equal to one. -/
theorem exists_lam (h : Usable bound s e) : ∃ x b, s = .lam x b := by
  obtain ⟨y, c, hd⟩ := h.abstraction
  have hsame := h.alphaEq
  rw [hd] at hsame
  cases s with
  | lam x b => exact ⟨x, b, rfl⟩
  | var x => cases hsame
  | ref x => cases hsame
  | app f a => cases hsame

theorem not_of_ne (hs : ∀ x b, s ≠ .lam x b) : ¬Usable bound s e := by
  intro h
  obtain ⟨x, b, hlam⟩ := h.exists_lam
  exact hs x b hlam

/-- A part for which a binding can stand refers to none. -/
theorem references (h : Usable bound s e) (hrefs : e.2.references = []) : s.references = [] := by
  have hform := (Term.alphaEq_closed_iff h.closed hrefs s []).1 h.alphaEq
  have hconstants : (s.nameless .shared []).constants = [] := by
    rw [hform]
    exact Term.constants_eq_nil_of_closed h.closed hrefs
  exact (Term.closed_of_nameless (s.scoped_nameless .shared []) hconstants).2

end Usable

section Names

/-- The tests by which a name is chosen. -/
theorem usable_iff :
    Usable bound s e ↔
      (match e.2 with
        | .lam _ _ => e.2.isClosed
        | _ => false) = true ∧ (e.1 ∉ bound && s.alphaEq e.2) = true := by
  obtain ⟨name, d⟩ := e
  simp only [Bool.and_eq_true, decide_eq_true_eq]
  constructor
  · rintro ⟨⟨x, b, rfl⟩, hclosed, hvisible, hsame⟩
    exact ⟨List.isEmpty_iff.2 hclosed, hvisible, hsame⟩
  · rintro ⟨hclosed, hvisible, hsame⟩
    cases d with
    | lam x b => exact ⟨⟨x, b, rfl⟩, List.isEmpty_iff.1 hclosed, hvisible, hsame⟩
    | _ => cases hclosed

instance : Decidable (Usable bound s e) :=
  decidable_of_iff _ usable_iff.symm

theorem nameOf?_eq_find? (env : Environment) (bound : List String) (s : Term) :
    nameOf? env.readable bound s = (env.entries.find? fun e => Usable bound s e).map Prod.fst := by
  rw [nameOf?, readable, List.find?_filter]
  congr 2
  funext e
  exact decide_eq_decide.2 usable_iff.symm

theorem nameOf?_eq_some_iff {name : String} :
    nameOf? env.readable bound s = some name ↔ env.FirstUsable bound s name := by
  rw [nameOf?_eq_find?, Option.map_eq_some_iff]
  constructor
  · rintro ⟨⟨name, d⟩, hfind, rfl⟩
    obtain ⟨husable, before, after, hentries, hbefore⟩ := List.find?_eq_some_iff_append.1 hfind
    refine ⟨before, d, after, hentries, of_decide_eq_true husable, ?_⟩
    intro e he
    simpa using hbefore e he
  · rintro ⟨before, d, after, hentries, husable, hbefore⟩
    refine ⟨(name, d), List.find?_eq_some_iff_append.2
      ⟨decide_eq_true husable, before, after, hentries, ?_⟩, rfl⟩
    intro e he
    simpa using hbefore e he

theorem nameOf?_eq_none_iff :
    nameOf? env.readable bound s = none ↔ ∀ e ∈ env.entries, ¬Usable bound s e := by
  rw [nameOf?_eq_find?, Option.map_eq_none_iff, List.find?_eq_none]
  simp only [decide_eq_true_eq]

end Names

theorem abbreviates_readBackUnder (env : Environment) (bound : List String) (t : Term) :
    Abbreviates env bound t (readBackUnder env.readable bound t) := by
  induction t generalizing bound with
  | var x => exact .var bound x
  | ref x => exact .ref bound x
  | lam x b ih =>
    rw [readBackUnder]
    split
    · next name hname => exact .name (nameOf?_eq_some_iff.1 hname)
    · next hname => exact .lam (nameOf?_eq_none_iff.1 hname) (ih (x :: bound))
  | app f a ihf iha => exact .app (ihf bound) (iha bound)

/-- A term is abbreviated in one way only. -/
theorem Abbreviates.eq_readBackUnder (h : Abbreviates env bound t u) :
    u = readBackUnder env.readable bound t := by
  induction h with
  | var bound x => rfl
  | ref bound x => rfl
  | @name bound s name h =>
    obtain ⟨before, d, after, -, husable, -⟩ := id h
    obtain ⟨x, b, rfl⟩ := husable.exists_lam
    rw [readBackUnder, nameOf?_eq_some_iff.2 h]
  | lam hnone _ ih => rw [readBackUnder, nameOf?_eq_none_iff.2 hnone, ← ih]
  | app _ _ ihf iha => rw [readBackUnder, ← ihf, ← iha]

/-- Reading back leaves a reference wherever it changes something. -/
theorem readBackUnder_eq_or_references (candidates : List (String × Term)) (bound : List String)
    (t : Term) :
    readBackUnder candidates bound t = t ∨ (readBackUnder candidates bound t).references ≠ [] := by
  induction t generalizing bound with
  | var x => exact Or.inl rfl
  | ref x => exact Or.inl rfl
  | lam x b ih =>
    rw [readBackUnder]
    split
    · exact Or.inr (List.cons_ne_nil _ _)
    · exact (ih (x :: bound)).imp_left (congrArg (Term.lam x))
  | app f a ihf iha =>
    rw [readBackUnder]
    rcases ihf bound with hf | hf
    · rcases iha bound with ha | ha
      · exact Or.inl (by rw [hf, ha])
      · exact Or.inr fun hnil => ha (List.append_eq_nil_iff.1 hnil).2
    · exact Or.inr fun hnil => hf (List.append_eq_nil_iff.1 hnil).1

def Unabbreviated (env : Environment) (bound : List String) (t : Term) : Prop :=
  ∀ p ∈ t.parts bound, ∀ e ∈ env.entries, ¬Usable p.1 p.2 e

theorem unabbreviated_ref (env : Environment) (bound : List String) (x : String) :
    env.Unabbreviated bound (.ref x) := by
  intro p hp e _
  obtain rfl := List.mem_singleton.1 hp
  exact Usable.not_of_ne (by simp)

theorem unabbreviated_readBackUnder (h : env.ReferenceFree) (bound : List String) (t : Term) :
    env.Unabbreviated bound (readBackUnder env.readable bound t) := by
  induction t generalizing bound with
  | var x =>
    intro p hp e _
    obtain rfl := List.mem_singleton.1 hp
    exact Usable.not_of_ne (by simp)
  | ref x => exact unabbreviated_ref env bound x
  | lam x b ih =>
    rw [readBackUnder]
    split
    · exact unabbreviated_ref env bound _
    · next hname =>
      refine List.forall_mem_cons.2 ⟨?_, ih (x :: bound)⟩
      intro e he husable
      -- A name put into the body would be a reference, and no definition has one.
      rcases readBackUnder_eq_or_references env.readable (x :: bound) b with hsame | hrefs
      · rw [hsame] at husable
        exact nameOf?_eq_none_iff.1 hname e he husable
      · exact hrefs (husable.references (h e he))
  | app f a ihf iha =>
    refine List.forall_mem_cons.2 ⟨?_, List.forall_mem_append.2 ⟨ihf bound, iha bound⟩⟩
    exact fun e _ => Usable.not_of_ne (by simp)

theorem readBackUnder_of_unabbreviated (h : env.Unabbreviated bound t) :
    readBackUnder env.readable bound t = t := by
  induction t generalizing bound with
  | var x => rfl
  | ref x => rfl
  | lam x b ih =>
    obtain ⟨hnone, hb⟩ := List.forall_mem_cons.1 h
    rw [readBackUnder, nameOf?_eq_none_iff.2 hnone]
    exact congrArg (Term.lam x) (ih hb)
  | app f a ihf iha =>
    obtain ⟨-, hparts⟩ := List.forall_mem_cons.1 h
    obtain ⟨hf, ha⟩ := List.forall_mem_append.1 hparts
    rw [readBackUnder, ihf hf, iha ha]

/-- If no definition refers to a binding, reading back writes every outermost part for which a
binding can stand as the first of their names and changes nothing else. It leaves no part for which
a binding can stand, so reading back again changes nothing. -/
theorem readBack_leaves_nothing_usable (env : Environment) (h : env.ReferenceFree) (t : Term) :
    (∀ u, Abbreviates env [] t u ↔ u = env.readBack t) ∧
      (∀ p ∈ (env.readBack t).parts [], ∀ e ∈ env.entries, ¬Usable p.1 p.2 e) ∧
      env.readBack (env.readBack t) = env.readBack t := by
  have hleft := unabbreviated_readBackUnder h [] t
  refine ⟨fun u => ⟨Abbreviates.eq_readBackUnder, ?_⟩, hleft, readBackUnder_of_unabbreviated hleft⟩
  rintro rfl
  exact abbreviates_readBackUnder env [] t

/-- Of two definitions that are equal up to the names of bound variables the first is taken, except
below a binder of its name. -/
theorem readBack_leaves_nothing_usable_hidden_name :
    let env : Environment :=
      Roster.ofList [("id", .lam "x" (.var "x")), ("same", .lam "y" (.var "y")), ("f", .var "id")]
    let identity : Term := .lam "z" (.var "z")
    let t : Term := .app identity (.lam "id" (.app identity (.var "id")))
    env.ReferenceFree ∧
      env.readBack t = .app (.ref "id") (.lam "id" (.app (.ref "same") (.var "id"))) ∧
      (∀ u, Abbreviates env [] t u ↔ u = env.readBack t) ∧
      (∀ p ∈ (env.readBack t).parts [], ∀ e ∈ env.entries, ¬Usable p.1 p.2 e) ∧
      env.readBack (env.readBack t) = env.readBack t := by
  intro env identity t
  have h : ∀ e ∈ env.entries, e.2.references = [] := by
    decide +kernel
  exact ⟨h, by decide +kernel, readBack_leaves_nothing_usable env h t⟩

end Environment

end NormalOrder
