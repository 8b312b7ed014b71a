import NormalOrder.Environment
import NormalOrder.Proofs.Nameless.Alpha
import NormalOrder.Proofs.Nameless.Unfolding
import NormalOrder.Proofs.Roster
import NormalOrder.Proofs.Step

/-!
# Names that are read back

Whether an abstraction is read back, and as what, depends only on its form and on the names of the
binders around it. What is read back is unfolded to the form that the abstraction had, so reading
back changes nothing but which constants have been unfolded.
-/

namespace NormalOrder.Environment

variable {env : Environment}

/-- No definition refers to a binding other than by a free variable. -/
def ReferenceFree (env : Environment) : Prop :=
  ∀ e ∈ env.entries, e.2.references = []

def closedDefinition? (env : Environment) (name : String) : Option Term :=
  match env.find? name with
  | some (.lam x b) => if (Term.lam x b).isClosed then some (.lam x b) else none
  | _ => none

def closedForm? (env : Environment) (name : String) : Option (Nameless String) :=
  (env.closedDefinition? name).map Term.globalForm

theorem mem_readable_iff {name : String} {d : Term} :
    (name, d) ∈ env.readable ↔ env.find? name = some d ∧ (∃ x b, d = .lam x b) ∧ d.free = [] := by
  rw [readable, List.mem_filter, Roster.find?_eq_some_iff]
  refine and_congr_right fun _ => ?_
  cases d with
  | lam x b => simp [Term.isClosed]
  | _ => simp

theorem closedDefinition?_eq_some_iff {name : String} {d : Term} :
    env.closedDefinition? name = some d ↔ (name, d) ∈ env.readable := by
  rw [mem_readable_iff, closedDefinition?]
  constructor
  · intro h
    split at h
    · next x b hd =>
      split at h
      · next hclosed =>
        obtain rfl := Option.some.inj h
        exact ⟨hd, ⟨x, b, rfl⟩, List.isEmpty_iff.1 hclosed⟩
      · cases h
    · cases h
  · rintro ⟨hd, ⟨x, b, rfl⟩, hfree⟩
    have hclosed : (Term.lam x b).isClosed = true := List.isEmpty_iff.2 hfree
    simp only [hd, if_pos hclosed]

theorem closedForm?_of_mem {name : String} {d : Term} (h : (name, d) ∈ env.readable) :
    env.closedForm? name = some d.globalForm := by
  rw [closedForm?, closedDefinition?_eq_some_iff.2 h]
  rfl

theorem definitions_of_closedForm? {name : String} {form : Nameless String}
    (h : env.closedForm? name = some form) : env.definitions name = some form := by
  obtain ⟨d, hd, rfl⟩ := Option.map_eq_some_iff.1 h
  rw [definitions, (mem_readable_iff.1 (closedDefinition?_eq_some_iff.1 hd)).1]
  rfl

theorem ReferenceFree.of_mem_readable (h : env.ReferenceFree) {e : String × Term}
    (he : e ∈ env.readable) : e.2.references = [] :=
  h e (List.mem_filter.1 he).1

/-- A definition that is read back has no constants that could be unfolded. -/
theorem unfold_readable (h : env.ReferenceFree) {e : String × Term} (he : e ∈ env.readable)
    (δ : String → Option (Nameless String)) : e.2.globalForm.unfold δ = e.2.globalForm := by
  have hfree := (mem_readable_iff.1 he).2.2
  apply Nameless.unfold_of_constants
  rw [Term.constants_eq_nil_of_closed hfree (h.of_mem_readable he)]
  exact fun c hc => absurd hc List.not_mem_nil

section Names

/-- The name to read a form back as, below the given binders. -/
def nameOfForm? (env : Environment) (bound : List String) (form : Nameless String) :
    Option String :=
  (env.readable.find? fun e => e.1 ∉ bound && form = e.2.globalForm).map Prod.fst

/-- An abstraction is read back by its form, whatever binders that is taken under. -/
theorem nameOf?_readable (h : env.ReferenceFree) (bound binders : List String) (t : Term) :
    nameOf? env.readable bound t = env.nameOfForm? bound (t.nameless .shared binders) := by
  rw [nameOf?, nameOfForm?, ← List.head?_filter, ← List.head?_filter]
  congr 2
  apply List.filter_congr
  intro e he
  have hfree := (mem_readable_iff.1 he).2.2
  have hsame := Term.alphaEq_closed_iff hfree (h.of_mem_readable he) t binders
  rw [Bool.eq_iff_iff.2 (hsame.trans decide_eq_true_iff.symm)]

theorem of_nameOf?_eq_some {candidates : List (String × Term)} {bound : List String} {t : Term}
    {name : String} (h : nameOf? candidates bound t = some name) :
    ∃ d, (name, d) ∈ candidates ∧ name ∉ bound ∧ t.alphaEq d = true := by
  obtain ⟨⟨key, d⟩, hfind, rfl⟩ := Option.map_eq_some_iff.1 h
  have hp := List.find?_some hfind
  simp only [Bool.and_eq_true, decide_eq_true_eq] at hp
  exact ⟨d, List.mem_of_find?_eq_some hfind, hp.1, hp.2⟩

theorem nameOfForm?_eq_some {bound : List String} {form : Nameless String} {name : String}
    (h : env.nameOfForm? bound form = some name) :
    ∃ d, (name, d) ∈ env.readable ∧ name ∉ bound ∧ form = d.globalForm := by
  obtain ⟨⟨key, d⟩, hfind, rfl⟩ := Option.map_eq_some_iff.1 h
  have hp := List.find?_some hfind
  simp only [Bool.and_eq_true, decide_eq_true_eq] at hp
  exact ⟨d, List.mem_of_find?_eq_some hfind, hp.1, hp.2⟩

end Names

/-- Reading back changes nothing but which constants have been unfolded. -/
theorem unfold_readBackUnder (h : env.ReferenceFree) (bound : List String) (t : Term) :
    ((readBackUnder env.readable bound t).nameless .shared bound).unfold env.closedForm? =
      (t.nameless .shared bound).unfold env.closedForm? := by
  induction t generalizing bound with
  | var x => rfl
  | ref x => rfl
  | lam x b ih =>
    rw [readBackUnder]
    split
    · next name hname =>
      rw [nameOf?_readable h bound bound] at hname
      obtain ⟨d, hd, -, hform⟩ := nameOfForm?_eq_some hname
      rw [hform, unfold_readable h hd]
      simp only [Term.nameless, Nameless.unfold, Naming.shared, id, closedForm?_of_mem hd,
        Option.getD_some]
    · simp only [Term.nameless, Nameless.unfold, ih]
  | app f a ihf iha => simp only [readBackUnder, Term.nameless, Nameless.unfold, ihf, iha]

theorem unfold_globalForm_readBack (h : env.ReferenceFree) (t : Term) :
    (env.readBack t).globalForm.unfold env.closedForm? = t.globalForm.unfold env.closedForm? :=
  unfold_readBackUnder h [] t

/-- The names that reading back puts in are names of bindings. -/
theorem mem_names_of_readBackUnder (bound : List String) (t : Term) :
    ∀ x ∈ (readBackUnder env.readable bound t).names, x ∈ t.names ∨ x ∈ env.names := by
  induction t generalizing bound with
  | var y => exact fun x hx => Or.inl hx
  | ref y => exact fun x hx => Or.inl hx
  | lam y b ih =>
    intro x hx
    rw [readBackUnder] at hx
    split at hx
    · next name hname =>
      obtain ⟨d, hd, -⟩ := of_nameOf?_eq_some hname
      obtain rfl := List.mem_singleton.1 hx
      exact Or.inr (List.mem_map_of_mem (List.mem_filter.1 hd).1)
    · rcases List.mem_cons.1 hx with rfl | hb
      · exact Or.inl List.mem_cons_self
      · exact (ih _ x hb).imp_left (List.mem_cons_of_mem _)
  | app f a ihf iha =>
    intro x hx
    rcases List.mem_append.1 hx with hf | ha
    · exact (ihf bound x hf).imp_left (List.mem_append_left _)
    · exact (iha bound x ha).imp_left (List.mem_append_right _)

end NormalOrder.Environment
