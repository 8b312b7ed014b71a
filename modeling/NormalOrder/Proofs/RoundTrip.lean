import NormalOrder.Proofs.Grammar.Parsing
import NormalOrder.Proofs.Scanning
import NormalOrder.Proofs.Shown

/-!
# What is written is read back

A written term is read as the term that it shows. The text of a part is followed through reading in
whatever text it stands, so the parts of a term can be put together as the printer puts them: a part
is a phrase of the kind that its position asks for.
-/

namespace NormalOrder.Statement

/-- Characters that are read as a phrase, wherever they stand, if what follows is not a part of
their last identifier. -/
def WrittenAs (n : Nonterminal) (cs : List Char) (t : Term) : Prop :=
  ∀ pos rest, Token.Separated rest → ∃ us, Derives n us t ∧
    Scan.ofChars pos (cs ++ rest) = Scan.prepend us (Scan.ofChars (pos + cs.length) rest)

namespace WrittenAs

theorem imp {n m : Nonterminal} {cs : List Char} {t : Term} (h : WrittenAs n cs t)
    (hnm : ∀ us, Derives n us t → Derives m us t) : WrittenAs m cs t := by
  intro pos rest hrest
  obtain ⟨us, hd, hscan⟩ := h pos rest hrest
  exact ⟨us, hnm us hd, hscan⟩

theorem identifier {x : String} (h : Token.isIdentifier x = true) :
    WrittenAs .atom x.toList (.var x) := by
  intro pos rest hrest
  have hd : Derives .atom [⟨.identifier, x, pos⟩] (.var x) := .identifier rfl
  refine ⟨_, hd, ?_⟩
  rw [Scan.ofChars_word pos h hrest, String.ofList_toList]

theorem enclosed {cs : List Char} {t : Term} (h : WrittenAs .term cs t) :
    WrittenAs .atom ('(' :: (cs ++ [')'])) t := by
  intro pos rest _
  obtain ⟨us, hd, hscan⟩ := h (pos + 1) (')' :: rest) rfl
  have hatom :
      Derives .atom (⟨.lparen, "(", pos⟩ :: (us ++ [⟨.rparen, ")", pos + 1 + cs.length⟩])) t :=
    .enclosed rfl rfl hd
  refine ⟨_, hatom, ?_⟩
  have hlength : pos + ('(' :: (cs ++ [')'])).length = pos + 1 + cs.length + 1 := by
    simp only [List.length_cons, List.length_append, List.length_nil]
    omega
  rw [hlength, List.cons_append, List.append_assoc, List.singleton_append,
    Scan.ofChars_symbol pos (by decide) rfl, hscan, Scan.ofChars_symbol _ (by decide) rfl,
    Scan.prepend_prepend, Scan.prepend_prepend]
  rfl

theorem abstraction {x : String} {cs : List Char} {b : Term} (hx : Token.isIdentifier x = true)
    (h : WrittenAs .term cs b) :
    WrittenAs .abstraction ('λ' :: (x.toList ++ '.' :: ' ' :: cs)) (.lam x b) := by
  intro pos rest hrest
  let dotPos := pos + 1 + x.toList.length
  obtain ⟨us, hd, hscan⟩ := h (dotPos + 1 + 1) rest hrest
  have hlam : Derives .abstraction
      (⟨.lambda, "λ", pos⟩ :: ⟨.identifier, x, pos + 1⟩ :: ⟨.dot, ".", dotPos⟩ :: us) (.lam x b) :=
    .abstraction rfl rfl rfl hd
  refine ⟨_, hlam, ?_⟩
  have hlength : pos + ('λ' :: (x.toList ++ '.' :: ' ' :: cs)).length =
      dotPos + 1 + 1 + cs.length := by
    simp only [List.length_cons, List.length_append, dotPos]
    omega
  have hdot : Token.Separated ('.' :: ' ' :: (cs ++ rest)) := rfl
  rw [hlength, List.cons_append, List.append_assoc, List.cons_append, List.cons_append,
    Scan.ofChars_symbol pos (by decide) rfl, Scan.ofChars_word (pos + 1) hx hdot,
    Scan.ofChars_symbol dotPos (by decide) rfl, Scan.ofChars_blank _ (by decide), hscan,
    String.ofList_toList, Scan.prepend_prepend, Scan.prepend_prepend, Scan.prepend_prepend]
  rfl

theorem apply {cs ds : List Char} {f a : Term} (hf : WrittenAs .atoms cs f)
    (ha : WrittenAs .atom ds a) : WrittenAs .atoms (cs ++ ' ' :: ds) (.app f a) := by
  intro pos rest hrest
  obtain ⟨us, hdf, hscanf⟩ := hf pos (' ' :: (ds ++ rest)) rfl
  obtain ⟨vs, hda, hscana⟩ := ha (pos + cs.length + 1) rest hrest
  refine ⟨us ++ vs, .apply hdf hda, ?_⟩
  have hlength : pos + (cs ++ ' ' :: ds).length = pos + cs.length + 1 + ds.length := by
    simp only [List.length_cons, List.length_append]
    omega
  rw [hlength, List.append_assoc, List.cons_append, hscanf, Scan.ofChars_blank _ (by decide),
    hscana, Scan.prepend_prepend]

end WrittenAs

/-- A text that is read to its end is the statement that its tokens are. -/
theorem parse_of_scan {text : String} {us : List Token} {length : Nat} {statement : Statement}
    (hscan : Scan.ofText text = Scan.prepend us ⟨[], .ok length⟩)
    (h : DerivesStatement us statement) :
    parse text = .ok statement := by
  have htokens : (Scan.ofText text).tokens = us := by
    simpa [Scan.prepend] using congrArg Scan.tokens hscan
  have hfault : (Scan.ofText text).fault? = none := congrArg Scan.fault? hscan
  apply parse_of_derives hfault
  rw [htokens]
  exact h

end NormalOrder.Statement

namespace NormalOrder.Term

open Statement

def Position.nonterminal : Position → Nonterminal
  | whole => .term
  | function => .atoms
  | argument => .atom

theorem writtenAs_of_atom {cs : List Char} {t : Term} (h : WrittenAs .atom cs t)
    (position : Position) : WrittenAs position.nonterminal cs t := by
  cases position with
  | whole => exact h.imp fun us hd => .applicationTerm (.atoms (.single hd))
  | function => exact h.imp fun us hd => .single hd
  | argument => exact h

theorem writtenAs_enclose {text : String} {t : Term} (h : WrittenAs .term text.toList t) :
    WrittenAs .atom (enclose true text).toList t := by
  simpa [enclose] using h.enclosed

/-- The text of a term, where it stands, is read as the term that it shows. -/
theorem writtenAs_renderAt (position : Position) (t : Term)
    (h : ∀ x ∈ t.names, Token.isIdentifier x = true) :
    WrittenAs position.nonterminal (t.renderAt position).toList t.shown := by
  fun_induction renderAt position t with
  | case1 position x =>
    rw [shown]
    exact writtenAs_of_atom (.identifier (h x (by simp [names]))) position
  | case2 position x =>
    rw [shown]
    exact writtenAs_of_atom (.identifier (h x (by simp [names]))) position
  | case3 position x b r ih =>
    obtain ⟨hx, hb⟩ := isIdentifier_reveal h
    have hlam : WrittenAs .abstraction
        ("λ" ++ r.1 ++ ". " ++ renderAt .whole r.2).toList (.lam r.1 r.2.shown) := by
      simpa using WrittenAs.abstraction hx (ih hb)
    have hterm := hlam.imp fun us hd => .abstractionTerm hd
    rw [shown]
    cases position with
    | whole => exact hterm
    | function => exact writtenAs_of_atom (writtenAs_enclose hterm) .function
    | argument => exact writtenAs_enclose hterm
  | case4 position f a ihf iha =>
    have hf := ihf fun x hx => h x (List.mem_append_left _ hx)
    have ha := iha fun x hx => h x (List.mem_append_right _ hx)
    have happ : WrittenAs .atoms (renderAt .function f ++ " " ++ renderAt .argument a).toList
        (.app f.shown a.shown) := by
      simpa using hf.apply ha
    have hterm := happ.imp fun us hd => .applicationTerm (.atoms hd)
    rw [shown]
    cases position with
    | whole => exact hterm
    | function => exact happ
    | argument => exact writtenAs_enclose hterm

/-- A written term is read back as the term that it shows. -/
theorem parse_render {t : Term} (h : ∀ x ∈ t.names, Token.isIdentifier x = true) :
    parse t.render = .ok (.bare t.shown) := by
  obtain ⟨us, hd, hscan⟩ := writtenAs_renderAt .whole t h 0 [] trivial
  rw [List.append_nil, Scan.ofChars_nil] at hscan
  exact parse_of_scan hscan (.bare hd)

/-- A term of identifiers is read back as a term without references that has the same form, and as
the same term if it has no references itself. -/
theorem parse_render_same_form (t : Term) (h : ∀ x ∈ t.names, Token.isIdentifier x = true) :
    ∃ u, parse t.render = .ok (.bare u) ∧ u.references = [] ∧ u.globalForm = t.globalForm ∧
      (t.references = [] → u = t) :=
  ⟨t.shown, parse_render h, references_shown t, globalForm_shown t, shown_of_references_eq_nil⟩

/-- Both names that the binder `y` could be mistaken for are avoided when it is renamed: the
reference `y` and the inner binder `y1`. -/
theorem parse_render_same_form_hidden_reference :
    let t : Term := .lam "y" (.lam "y1" (.app (.app (.ref "y") (.var "y")) (.var "y1")))
    (∀ x ∈ t.names, Token.isIdentifier x = true) ∧
    ∃ u, parse t.render = .ok (.bare u) ∧ u.references = [] ∧
      u.globalForm = .lam (.lam (.app (.app (.const "y") (.bound 1)) (.bound 0))) ∧
      (t.references = [] → u = t) := by
  intro t
  have hnames : ∀ x ∈ t.names, Token.isIdentifier x = true := by decide
  exact ⟨hnames, parse_render_same_form t hnames⟩

end NormalOrder.Term
