import NormalOrder.Proofs.ReadBack.Expansion
import NormalOrder.Proofs.Shown

/-!
# Reading back a second time

In what is left of a normal form when names have been read back, every reference to a closed binding
is the one that would be chosen for its definition, and no other abstraction would be read back.
Such a term is settled. The binders around a part matter for this only through the bindings whose
names they hide.

When a settled term is written, a binder is renamed only if a reference in its body has its name.
That is the name of no binding then, and the new name is that of no reference in the body, so the
bindings that were chosen are chosen again: the text stays the same.
-/

namespace NormalOrder.Environment

variable {env : Environment}

section Binders

variable {bound bound' : List String} {form : Nameless String}

theorem mem_bound_of_readable (hkept : ∀ y ∈ bound, y ∈ bound' ∨ env.find? y = none)
    {e : String × Term} (he : e ∈ env.readable) (h : e.1 ∉ bound') : e.1 ∉ bound := by
  intro hmem
  rcases hkept e.1 hmem with hb | hnone
  · exact h hb
  · rw [(mem_readable_iff.1 he).1] at hnone
    cases hnone

/-- A form that has no name to be read back as gets none below binders that hide at least the same
bindings. -/
theorem nameOfForm?_eq_none_of_bound (hkept : ∀ y ∈ bound, y ∈ bound' ∨ env.find? y = none)
    (h : env.nameOfForm? bound form = none) : env.nameOfForm? bound' form = none := by
  simp only [nameOfForm?, Option.map_eq_none_iff, List.find?_eq_none, Bool.and_eq_true,
    decide_eq_true_eq, not_and] at h ⊢
  intro e he hnot
  exact h e he (mem_bound_of_readable hkept he hnot)

/-- The name that a form is read back as stays the same below binders that hide at least the same
bindings and not that one. -/
theorem nameOfForm?_eq_some_of_bound (hkept : ∀ y ∈ bound, y ∈ bound' ∨ env.find? y = none)
    {name : String} (hname : name ∉ bound') (h : env.nameOfForm? bound form = some name) :
    env.nameOfForm? bound' form = some name := by
  obtain ⟨e, hfind, rfl⟩ := Option.map_eq_some_iff.1 h
  obtain ⟨hp, before, after, hsplit, hbefore⟩ := List.find?_eq_some_iff_append.1 hfind
  simp only [Bool.and_eq_true, decide_eq_true_eq] at hp
  refine Option.map_eq_some_iff.2 ⟨e, List.find?_eq_some_iff_append.2
    ⟨?_, before, after, hsplit, ?_⟩, rfl⟩
  · simp only [Bool.and_eq_true, decide_eq_true_eq]
    exact ⟨hname, hp.2⟩
  · intro c hc
    have hmem : c ∈ env.readable := by
      rw [hsplit]
      exact List.mem_append_left _ hc
    have hnot := hbefore c hc
    simp only [Bool.not_eq_true', Bool.and_eq_false_iff, decide_eq_false_iff_not] at hnot ⊢
    rcases hnot with hb | hform
    · refine Or.inl fun hfree => hb ?_
      exact mem_bound_of_readable hkept hmem hfree
    · exact Or.inr hform

end Binders

/-- A term below binders that has been read back. The assignment gives the form of its parts, and
the list of binders says which bindings they hide. -/
def Settled (env : Environment) (bound : List String) (ρ : Assignment String) : Term → Prop
  | .var x => x ∈ bound ∨ env.find? x = none
  | .ref x =>
    env.find? x = none ∨
      ∃ form, env.closedForm? x = some form ∧ env.nameOfForm? bound form = some x
  | .lam x b =>
    env.nameOfForm? bound (((Term.lam x b).assign .shared ρ).unfold env.closedForm?) = none ∧
      env.Settled (x :: bound) (ρ.below x) b
  | .app f a => env.Settled bound ρ f ∧ env.Settled bound ρ a

namespace Settled

variable {bound bound' : List String} {ρ σ : Assignment String}

/-- A reference of the name of a binder around it is to no binding. -/
theorem find?_of_mem_references {t : Term} (h : env.Settled bound ρ t) :
    ∀ x ∈ t.references, x ∈ bound → env.find? x = none := by
  induction t generalizing bound ρ with
  | var y => exact fun x hx => absurd hx List.not_mem_nil
  | ref y =>
    intro x hx hbound
    obtain rfl := List.mem_singleton.1 hx
    rcases h with hnone | ⟨form, -, hname⟩
    · exact hnone
    · obtain ⟨d, -, hnot, -⟩ := nameOfForm?_eq_some hname
      exact absurd hbound hnot
  | lam y b ih =>
    intro x hx hbound
    exact ih h.2 x hx (List.mem_cons_of_mem _ hbound)
  | app f a ihf iha =>
    intro x hx hbound
    rcases List.mem_append.1 hx with hf | ha
    · exact ihf h.1 x hf hbound
    · exact iha h.2 x ha hbound

/-- A settled reference stays so below binders that hide at least the same bindings and not its
own. -/
theorem reference {x : String} (hkept : ∀ y ∈ bound, y ∈ bound' ∨ env.find? y = none)
    (hx : x ∈ bound' → x ∈ bound) (h : env.Settled bound ρ (.ref x)) :
    env.Settled bound' σ (.ref x) := by
  rcases h with hnone | ⟨form, hform, hname⟩
  · exact Or.inl hnone
  · obtain ⟨d, -, hnot, -⟩ := nameOfForm?_eq_some hname
    exact Or.inr ⟨form, hform, nameOfForm?_eq_some_of_bound hkept (fun hb => hnot (hx hb)) hname⟩

theorem kept_cons (hkept : ∀ y ∈ bound, y ∈ bound' ∨ env.find? y = none) (x : String) :
    ∀ y ∈ x :: bound, y ∈ x :: bound' ∨ env.find? y = none := by
  intro y hy
  rcases List.mem_cons.1 hy with rfl | hy
  · exact Or.inl List.mem_cons_self
  · exact (hkept y hy).imp_left (List.mem_cons_of_mem _)

theorem names_cons {x : String} {names : List String}
    (hnames : ∀ y ∈ names, y ∈ bound' → y ∈ bound) :
    ∀ y ∈ names, y ∈ x :: bound' → y ∈ x :: bound := by
  intro y hy hmem
  rcases List.mem_cons.1 hmem with rfl | hmem
  · exact List.mem_cons_self
  · exact List.mem_cons_of_mem _ (hnames y hy hmem)

/-- The binders around a settled term can be others if they hide at least the same bindings, and no
name of the term that was not hidden. -/
theorem of_bound {t : Term} (hkept : ∀ y ∈ bound, y ∈ bound' ∨ env.find? y = none)
    (hnames : ∀ y ∈ t.names, y ∈ bound' → y ∈ bound) (h : env.Settled bound ρ t) :
    env.Settled bound' ρ t := by
  induction t generalizing bound bound' ρ with
  | var x => exact h.elim (hkept x) Or.inr
  | ref x => exact reference hkept (hnames x List.mem_cons_self) h
  | lam x b ih =>
    obtain ⟨-, hbody⟩ := List.forall_mem_cons.1 hnames
    refine ⟨nameOfForm?_eq_none_of_bound hkept h.1, ?_⟩
    exact ih (kept_cons hkept x) (names_cons hbody) h.2
  | app f a ihf iha =>
    obtain ⟨hf, ha⟩ := List.forall_mem_append.1 hnames
    exact ⟨ihf hkept hf h.1, iha hkept ha h.2⟩

/-- Only what is assigned to the free variables matters. -/
theorem congr {t : Term} (hsame : ∀ x ∈ t.free, ρ x = σ x) (h : env.Settled bound ρ t) :
    env.Settled bound σ t := by
  induction t generalizing bound ρ σ with
  | var x => exact h
  | ref x => exact h
  | lam x b ih =>
    refine ⟨?_, ih ?_ h.2⟩
    · rw [← Term.assign_congr .shared (.lam x b) hsame]
      exact h.1
    · intro y hy
      by_cases hyx : y = x
      · subst hyx
        rw [Assignment.below_self, Assignment.below_self]
      · rw [Assignment.below_of_ne _ hyx, Assignment.below_of_ne _ hyx,
          hsame y (Term.mem_free_lam.2 ⟨hy, hyx⟩)]
  | app f a ihf iha =>
    obtain ⟨hf, ha⟩ := List.forall_mem_append.1 hsame
    exact ⟨ihf hf h.1, iha ha h.2⟩

/-- A variable can be renamed to a new one along with the binder of it, if the binder hid no
binding. -/
theorem rename {old new : String} {t : Term} (hnew : new ∉ t.names) (hbound : new ∈ bound')
    (hkept : ∀ y ∈ bound, y ∈ bound' ∨ env.find? y = none)
    (hnames : ∀ y ∈ t.names, y ∈ bound' → y ∈ bound)
    (h : env.Settled bound (Function.update ρ old (ρ new)) t) :
    env.Settled bound' ρ (t.rename old new) := by
  induction t generalizing bound bound' ρ with
  | var x =>
    rw [Term.rename]
    split
    · exact Or.inl hbound
    · exact h.elim (hkept x) Or.inr
  | ref x => exact reference hkept (hnames x List.mem_cons_self) h
  | lam x b ih =>
    have hform : ((Term.lam x b).rename old new).assign .shared ρ =
        (Term.lam x b).assign .shared (Function.update ρ old (ρ new)) :=
      Term.assign_rename .shared ρ hnew
    obtain ⟨hx, hb⟩ := not_or.1 (fun hm => hnew (List.mem_cons.2 hm))
    obtain ⟨-, hbody⟩ := List.forall_mem_cons.1 hnames
    by_cases hxold : x = old
    · rw [Term.rename, if_pos hxold] at hform ⊢
      refine of_bound hkept hnames (h.congr ?_)
      intro y hy
      have hne : y ≠ old := fun he => (Term.mem_free_lam.1 hy).2 (he.trans hxold.symm)
      exact Function.update_of_ne hne ..
    · rw [Term.rename, if_neg hxold] at hform ⊢
      refine ⟨?_, ?_⟩
      · rw [hform]
        exact nameOfForm?_eq_none_of_bound hkept h.1
      · refine ih hb (List.mem_cons_of_mem _ hbound) (kept_cons hkept x) (names_cons hbody) ?_
        rw [Assignment.below_of_ne _ hx, Assignment.update_below ρ _ (fun he => hxold he.symm)]
        exact h.2
  | app f a ihf iha =>
    obtain ⟨hf, ha⟩ := not_or.1 (fun hm => hnew (List.mem_append.2 hm))
    obtain ⟨hnf, hna⟩ := List.forall_mem_append.1 hnames
    exact ⟨ihf hf hbound hkept hnf h.1, iha ha hbound hkept hna h.2⟩

/-- The body of an abstraction is settled below the binder under which it is written. -/
theorem reveal {x : String} {b : Term} (h : env.Settled bound ρ (.lam x b)) :
    env.Settled ((Term.reveal x b).1 :: bound) (ρ.below (Term.reveal x b).1)
      (Term.reveal x b).2 := by
  by_cases hx : x ∈ b.references
  · have hold : env.find? x = none := h.2.find?_of_mem_references x hx List.mem_cons_self
    obtain ⟨hnot, -⟩ | ⟨q, hq, -, he⟩ := Term.reveal_cases x b
    · exact absurd hx hnot
    · rw [he]
      have hfree : q ∉ b.free := fun hf => hq (Term.free_subset_names b q hf)
      have hkept : ∀ y ∈ x :: bound, y ∈ q :: bound ∨ env.find? y = none := by
        intro y hy
        rcases List.mem_cons.1 hy with rfl | hy
        · exact Or.inr hold
        · exact Or.inl (List.mem_cons_of_mem _ hy)
      refine rename hq List.mem_cons_self hkept ?_ ?_
      · intro y hy hmem
        rcases List.mem_cons.1 hmem with rfl | hmem
        · exact absurd hy hq
        · exact List.mem_cons_of_mem _ hmem
      · refine h.2.congr ?_
        intro y hy
        have hyq : y ≠ q := fun he => hfree (he ▸ hy)
        by_cases hyx : y = x
        · subst hyx
          rw [Function.update_self, Assignment.below_self, Assignment.below_self]
        · rw [Function.update_of_ne hyx, Assignment.below_of_ne _ hyx, Assignment.below_of_ne _ hyq]
  · rw [Term.reveal_of_not_mem hx]
    exact h.2

end Settled

theorem unfold_of_normal {form : Nameless String} (h : form.Normal env.definitions) :
    form.unfold env.closedForm? = form := by
  apply Nameless.unfold_of_constants
  intro c hc
  have hnone := Nameless.eq_none_of_normal h c hc
  rw [closedForm?, closedDefinition?_eq_none (Option.map_eq_none_iff.1 hnone)]
  rfl

/-- What reading back leaves of a normal form is settled. -/
theorem settled_readBackUnder (h : env.ReferenceFree) (bound : List String) {t : Term}
    (hn : (t.nameless .shared bound).Normal env.definitions) :
    env.Settled bound (.ofBinders .shared bound) (readBackUnder env.readable bound t) := by
  induction t generalizing bound with
  | var x =>
    by_cases hx : x ∈ bound
    · exact Or.inl hx
    · simp only [Term.nameless, if_neg hx] at hn
      exact Or.inr (Option.map_eq_none_iff.1 hn)
  | ref x => exact Or.inl (Option.map_eq_none_iff.1 hn)
  | lam x b ih =>
    rw [readBackUnder]
    split
    · next name hname =>
      rw [nameOf?_readable h bound bound] at hname
      obtain ⟨d, hd, -, hform⟩ := nameOfForm?_eq_some hname
      rw [hform] at hname
      exact Or.inr ⟨d.globalForm, closedForm?_of_mem hd, hname⟩
    · next hname =>
      rw [nameOf?_readable h bound bound] at hname
      have hbody := ih (x :: bound) hn
      rw [Assignment.ofBinders_cons] at hbody
      refine ⟨?_, hbody⟩
      have hunfold := unfold_readBackUnder h (x :: bound) b
      have hsame : (b.nameless .shared (x :: bound)).unfold env.closedForm? =
          b.nameless .shared (x :: bound) := unfold_of_normal hn
      rw [← Term.nameless_eq_assign, Term.nameless, Nameless.unfold, hunfold, hsame]
      exact hname
  | app f a ihf iha => exact ⟨ihf bound hn.2.1, iha bound hn.2.2⟩

/-- Reading back refers to no binding that a binder around hides. -/
theorem references_readBackUnder (bound : List String) (t : Term) :
    ∀ x ∈ (readBackUnder env.readable bound t).references, x ∈ t.references ∨ x ∉ bound := by
  induction t generalizing bound with
  | var y => exact fun x hx => Or.inl hx
  | ref y => exact fun x hx => Or.inl hx
  | lam y b ih =>
    intro x hx
    rw [readBackUnder] at hx
    split at hx
    · next name hname =>
      obtain ⟨d, -, hbound, -⟩ := of_nameOf?_eq_some hname
      obtain rfl := List.mem_singleton.1 hx
      exact Or.inr hbound
    · refine (ih (y :: bound) x hx).imp_right ?_
      exact fun hnot hmem => hnot (List.mem_cons_of_mem _ hmem)
  | app f a ihf iha =>
    intro x hx
    rcases List.mem_append.1 hx with hf | ha
    · exact (ihf bound x hf).imp_left (List.mem_append_left _)
    · exact (iha bound x ha).imp_left (List.mem_append_right _)

theorem references_expandClosed (h : env.ReferenceFree) (bound : List String) {t : Term}
    (ht : t.references = []) : (env.expandClosed bound t).references = [] := by
  induction t generalizing bound with
  | var x =>
    rw [expandClosed]
    split
    · rfl
    · cases hx : env.closedDefinition? x with
      | none => rfl
      | some d => exact h.of_mem_readable (closedDefinition?_eq_some_iff.1 hx)
  | ref x => cases ht
  | lam x b ih => exact ih (x :: bound) ht
  | app f a ihf iha =>
    obtain ⟨hf, ha⟩ := List.append_eq_nil_iff.1 ht
    simp only [expandClosed, Term.references, ihf bound hf, iha bound ha, List.append_nil]

theorem expandClosed_var {bound : List String} {x : String}
    (h : x ∈ bound ∨ env.find? x = none) : env.expandClosed bound (.var x) = .var x := by
  by_cases hx : x ∈ bound
  · rw [expandClosed, if_pos hx]
  · have hnone := h.resolve_left hx
    rw [expandClosed, if_neg hx, closedDefinition?_eq_none hnone]
    rfl

/-- A settled reference that is shown, expanded and read back is the reference again. -/
theorem readBackUnder_expandClosed_reference (h : env.ReferenceFree) {bound : List String}
    {x : String} {form : Nameless String} (hx : x ∉ bound) (hform : env.closedForm? x = some form)
    (hname : env.nameOfForm? bound form = some x) :
    readBackUnder env.readable bound (env.expandClosed bound (.var x)) = .ref x := by
  obtain ⟨d, hd, rfl⟩ := Option.map_eq_some_iff.1 hform
  obtain ⟨-, ⟨y, b, rfl⟩, hfree⟩ := mem_readable_iff.1 (closedDefinition?_eq_some_iff.1 hd)
  have hchosen : nameOf? env.readable bound (.lam y b) = some x := by
    rw [nameOf?_readable h bound []]
    exact hname
  rw [expandClosed, if_neg hx, hd, Option.getD_some, readBackUnder, hchosen]

/-- A settled abstraction is not read back after it has been shown and expanded. -/
theorem nameOf?_expandClosed_shown (h : env.ReferenceFree) {bound : List String} {t : Term}
    (hrefs : ∀ x ∈ t.references, x ∉ bound) :
    nameOf? env.readable bound (env.expandClosed bound t.shown) =
      env.nameOfForm? bound ((t.assign .shared (.ofBinders .shared bound)).unfold
        env.closedForm?) := by
  rw [nameOf?_readable h bound bound, nameless_expandClosed, Term.nameless_shown bound t hrefs,
    Term.nameless_eq_assign]

/-- A settled term is written as before after its text has been read, expanded and read back again.
The induction follows the binders as they are written. -/
theorem renderAt_readBackUnder_expandClosed (h : env.ReferenceFree) (position : Term.Position)
    (bound : List String) (t : Term) (hrefs : ∀ x ∈ t.references, x ∉ bound)
    (hs : env.Settled bound (.ofBinders .shared bound) t) :
    (readBackUnder env.readable bound (env.expandClosed bound t.shown)).renderAt position =
      t.renderAt position := by
  fun_induction Term.shown t generalizing bound position with
  | case1 x => rw [expandClosed_var hs, readBackUnder]
  | case2 x =>
    have hx : x ∉ bound := hrefs x List.mem_cons_self
    rcases hs with hnone | ⟨form, hform, hname⟩
    · rw [expandClosed_var (Or.inr hnone), readBackUnder, Term.renderAt, Term.renderAt]
    · rw [readBackUnder_expandClosed_reference h hx hform hname]
  | case3 x b ih =>
    have hnot := nameOf?_expandClosed_shown h hrefs
    rw [Term.shown, hs.1] at hnot
    have hbody := hs.reveal
    rw [← Assignment.ofBinders_cons] at hbody
    have hfresh := Term.fst_reveal_not_mem x b
    have hrefs' : ∀ y ∈ (Term.reveal x b).2.references, y ∉ (Term.reveal x b).1 :: bound := by
      intro y hy hmem
      rw [Term.references_reveal] at hy
      rcases List.mem_cons.1 hmem with rfl | hmem
      · exact hfresh hy
      · exact hrefs y hy hmem
    have htext := ih .whole _ hrefs' hbody
    have hclear : (Term.reveal x b).1 ∉ (readBackUnder env.readable ((Term.reveal x b).1 :: bound)
        (env.expandClosed ((Term.reveal x b).1 :: bound)
          (Term.reveal x b).2.shown)).references := by
      intro hmem
      rcases references_readBackUnder _ _ _ hmem with hold | hnotbound
      · rw [references_expandClosed h _ (Term.references_shown _)] at hold
        cases hold
      · exact hnotbound List.mem_cons_self
    simp only [expandClosed] at hnot ⊢
    simp only [readBackUnder, hnot]
    rw [Term.renderAt, Term.renderAt, Term.reveal_of_not_mem hclear, htext]
  | case4 f a ihf iha =>
    have hf := ihf .function bound (fun x hx => hrefs x (List.mem_append_left _ hx)) hs.1
    have ha := iha .argument bound (fun x hx => hrefs x (List.mem_append_right _ hx)) hs.2
    rw [expandClosed, readBackUnder, Term.renderAt, Term.renderAt, hf, ha]

end NormalOrder.Environment
