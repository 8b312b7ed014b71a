import NormalOrder.Proofs.Identifiers
import NormalOrder.Proofs.RoundTrip
import NormalOrder.Statement.Program
import NormalOrder.Text.Layout

/-!
# Written bindings are lines

The text of a term has neither a line end nor a semicolon in it, closes all parentheses that it
opens and does not end in a blank. So bindings that are written on lines of their own are found
again as statements of their own, and each of them is read as the binding that it was.
-/

namespace NormalOrder

namespace Text

theorem splitLines_append (line rest : List Char) {cs : List Char}
    (h : ∀ c ∈ cs, c ≠ '\n' ∧ c ≠ '\r') :
    splitLines line (cs ++ '\n' :: rest) = (line.reverse ++ cs) :: splitLines [] rest := by
  induction cs generalizing line with
  | nil => simp [splitLines]
  | cons c cs ih =>
    obtain ⟨⟨hfeed, hreturn⟩, hcs⟩ := List.forall_mem_cons.1 h
    rw [List.cons_append, splitLines, if_neg (by simp [hfeed, hreturn]), ih _ hcs]
    · simp
    · exact fun _ he _ => hreturn he

theorem splitLines_of_no_end (line : List Char) {cs : List Char}
    (h : ∀ c ∈ cs, c ≠ '\n' ∧ c ≠ '\r') :
    splitLines line cs = if (line.reverse ++ cs).isEmpty then [] else [line.reverse ++ cs] := by
  induction cs generalizing line with
  | nil => simp [splitLines]
  | cons c cs ih =>
    obtain ⟨⟨hfeed, hreturn⟩, hcs⟩ := List.forall_mem_cons.1 h
    rw [splitLines, if_neg (by simp [hfeed, hreturn]), ih _ hcs]
    · simp
    · exact fun _ he _ => hreturn he

/-- Lines that are written one after another are the lines of the text. -/
theorem lines_join {ls : List String} (h : ∀ l ∈ ls, ∀ c ∈ l.toList, c ≠ '\n' ∧ c ≠ '\r') :
    lines (String.join (ls.map (· ++ "\n"))) = ls := by
  rw [lines]
  induction ls with
  | nil => rfl
  | cons l ls ih =>
    obtain ⟨hl, hls⟩ := List.forall_mem_cons.1 h
    have htext : (String.join ((l :: ls).map (· ++ "\n"))).toList =
        l.toList ++ '\n' :: (String.join (ls.map (· ++ "\n"))).toList := by
      simp
    rw [htext, splitLines_append _ _ hl, List.map_cons, ih hls, List.reverse_nil, List.nil_append,
      String.ofList_toList]

/-- The lines follow one another in the text. The last one may lack its end, unless it is empty. -/
inductive MadeOf : String → List String → Prop
  | nil : MadeOf "" []
  | last {l : String} (hne : l ≠ "") (hl : ∀ c ∈ l.toList, c ≠ '\n' ∧ c ≠ '\r') : MadeOf l [l]
  | cons {l text : String} {ls : List String} (hl : ∀ c ∈ l.toList, c ≠ '\n' ∧ c ≠ '\r')
    (hls : MadeOf text ls) : MadeOf (l ++ "\n" ++ text) (l :: ls)

theorem MadeOf.lines_eq {text : String} {ls : List String} (h : MadeOf text ls) :
    lines text = ls := by
  induction h with
  | nil => rfl
  | @last l hne hl =>
    have hchars : ¬l.toList.isEmpty = true := by simpa using hne
    rw [lines, splitLines_of_no_end [] hl, List.reverse_nil, List.nil_append, if_neg hchars]
    exact congrArg (fun l => [l]) String.ofList_toList
  | @cons l text ls hl _ ih =>
    have htext : (l ++ "\n" ++ text).toList = l.toList ++ '\n' :: text.toList := by simp
    rw [lines] at ih
    rw [lines, htext, splitLines_append [] _ hl, List.map_cons, ih, List.reverse_nil,
      List.nil_append, String.ofList_toList]

end Text

namespace Token

theorem isBlank_of_isIdentifierPart {c : Char} (h : isIdentifierPart c = true) :
    Text.isBlank c = false := by
  rcases Bool.or_eq_true_iff.1 h with hstart | hprime
  · exact isBlank_of_isIdentifierStart hstart
  · rw [beq_iff_eq.1 hprime]
    decide

theorem ne_of_isIdentifierPart {c d : Char} (hc : isIdentifierPart c = true)
    (hd : isIdentifierPart d = false) : c ≠ d := by
  rintro rfl
  exact Bool.false_ne_true (hd.symm.trans hc)

theorem forall_isIdentifierPart {cs : List Char} (h : isWord cs = true) :
    ∀ c ∈ cs, isIdentifierPart c = true := by
  cases cs with
  | nil => cases h
  | cons c cs =>
    obtain ⟨hstart, hrest⟩ := Bool.and_eq_true_iff.1 h
    refine List.forall_mem_cons.2 ⟨?_, List.all_eq_true.1 hrest⟩
    rw [isIdentifierPart, hstart, Bool.true_or]

end Token

namespace Statement

/-- Characters that neither end a line nor start a comment, with as many opening as closing
parentheses. -/
structure Fragment (cs : List Char) : Prop where
  plain : ∀ c ∈ cs, c ≠ '\n' ∧ c ≠ '\r' ∧ c ≠ ';'
  balanced : cs.count '(' = cs.count ')'

namespace Fragment

theorem append {cs ds : List Char} (hc : Fragment cs) (hd : Fragment ds) : Fragment (cs ++ ds) := by
  constructor
  · exact List.forall_mem_append.2 ⟨hc.plain, hd.plain⟩
  · rw [List.count_append, List.count_append, hc.balanced, hd.balanced]

theorem word {cs : List Char} (h : ∀ c ∈ cs, Token.isIdentifierPart c = true) : Fragment cs := by
  have hne : ∀ d, Token.isIdentifierPart d = false → d ∉ cs := by
    intro d hd hmem
    exact Token.ne_of_isIdentifierPart (h d hmem) hd rfl
  constructor
  · intro c hc
    have hpart := h c hc
    exact ⟨Token.ne_of_isIdentifierPart hpart (by decide),
      Token.ne_of_isIdentifierPart hpart (by decide),
      Token.ne_of_isIdentifierPart hpart (by decide)⟩
  · rw [List.count_eq_zero_of_not_mem (hne '(' (by decide)),
      List.count_eq_zero_of_not_mem (hne ')' (by decide))]

end Fragment

/-- What a line holds when blanks and comment are gone and it does not go on in the next one. -/
structure Compact (cs : List Char) : Prop extends Fragment cs where
  ending : ∃ front last, cs = front ++ [last] ∧ Text.isBlank last = false

namespace Compact

theorem append {cs ds : List Char} (hc : Fragment cs) (hd : Compact ds) : Compact (cs ++ ds) := by
  obtain ⟨front, last, rfl, hlast⟩ := hd.ending
  exact ⟨hc.append hd.toFragment, cs ++ front, last, (List.append_assoc ..).symm, hlast⟩

theorem enclosed {cs : List Char} (h : Fragment cs) : Compact ('(' :: (cs ++ [')'])) := by
  refine ⟨⟨?_, ?_⟩, '(' :: cs, ')', rfl, by decide⟩
  · simp only [List.forall_mem_cons, List.forall_mem_append]
    exact ⟨by decide, h.plain, by decide, by simp⟩
  · simp [List.count_append, h.balanced]

theorem identifier {x : String} (h : Token.isIdentifier x = true) : Compact x.toList := by
  have hparts := Token.forall_isIdentifierPart h
  refine ⟨.word hparts, ?_⟩
  rcases List.eq_nil_or_concat' x.toList with hnil | ⟨front, last, hx⟩
  · rw [Token.isIdentifier, hnil] at h
    cases h
  · refine ⟨front, last, hx, Token.isBlank_of_isIdentifierPart (hparts last ?_)⟩
    rw [hx]
    exact List.mem_append_right _ List.mem_cons_self

theorem enclose {text : String} (h : Compact text.toList) (parentheses : Bool) :
    Compact (Term.enclose parentheses text).toList := by
  cases parentheses with
  | false => exact h
  | true => simpa [Term.enclose] using enclosed h.toFragment

end Compact

/-- The text of a term with identifiers for names is compact. -/
theorem compact_renderAt (position : Term.Position) (t : Term)
    (h : ∀ x ∈ t.names, Token.isIdentifier x = true) : Compact (t.renderAt position).toList := by
  fun_induction Term.renderAt position t with
  | case1 position x => exact .identifier (h x List.mem_cons_self)
  | case2 position x => exact .identifier (h x List.mem_cons_self)
  | case3 position x b r ih =>
    obtain ⟨hx, hb⟩ := Term.isIdentifier_reveal h
    have hlambda : Fragment "λ".toList := ⟨by simp, rfl⟩
    have hdot : Fragment ". ".toList := ⟨by simp, rfl⟩
    have hbinder : Fragment ("λ" ++ r.1 ++ ". ").toList := by
      simp only [String.toList_append]
      exact (hlambda.append (Compact.identifier hx).toFragment).append hdot
    refine .enclose ?_ _
    rw [String.toList_append]
    exact .append hbinder (ih hb)
  | case4 position f a ihf iha =>
    obtain ⟨hf, ha⟩ := List.forall_mem_append.1 h
    have hfront : Fragment (Term.renderAt .function f ++ " ").toList := by
      rw [String.toList_append]
      exact (ihf hf).toFragment.append ⟨by simp, rfl⟩
    refine .enclose ?_ _
    rw [String.toList_append]
    exact .append hfront (iha ha)

theorem compact_render_bind {name : String} {t : Term} (hname : Token.isIdentifier name = true)
    (ht : ∀ x ∈ t.names, Token.isIdentifier x = true) :
    Compact (Statement.bind name t).render.toList := by
  have hfront : Fragment (name ++ " = ").toList := by
    rw [String.toList_append]
    exact (Compact.identifier hname).toFragment.append ⟨by simp, rfl⟩
  rw [Statement.render, String.toList_append]
  exact .append hfront (compact_renderAt .whole t ht)

theorem dropComment_of_not_mem {cs : List Char} (h : ';' ∉ cs) : dropComment cs = cs := by
  fun_induction dropComment cs with
  | case1 => rfl
  | case2 rest => exact absurd List.mem_cons_self h
  | case3 c rest _ ih => rw [ih fun hm => h (List.mem_cons_of_mem _ hm)]

theorem tidy_of_compact {line : String} (h : Compact line.toList) : tidy line = line := by
  have hcomment : dropComment line.toList = line.toList :=
    dropComment_of_not_mem fun hm => (h.plain _ hm).2.2 rfl
  obtain ⟨front, last, hline, hlast⟩ := h.ending
  rw [tidy, hcomment, String.ofList_toList, Text.trimEnd, Text.dropEnd, hline, List.reverse_concat,
    List.dropWhile_cons_of_neg (by simp [hlast]), ← List.reverse_concat, List.reverse_reverse,
    ← hline, String.ofList_toList]

theorem isBlankText_of_compact {line : String} (h : Compact line.toList) :
    Text.isBlankText line = false := by
  obtain ⟨front, last, hline, hlast⟩ := h.ending
  rw [Text.isBlankText, hline, List.all_append, List.all_cons, hlast, Bool.false_and,
    Bool.and_false]

theorem goesOn_of_compact {line : String} (h : Compact line.toList) : goesOn line = false := by
  rw [goesOn, h.balanced]
  simp

/-- Lines of which none goes on are the statements. -/
theorem map_text_collect {lines : List String} (n : Nat)
    (h : ∀ line ∈ lines, goesOn (tidy line) = false) :
    (collect none n lines).map Numbered.text = lines.map tidy := by
  induction lines generalizing n with
  | nil => rfl
  | cons line lines ih =>
    obtain ⟨hline, hlines⟩ := List.forall_mem_cons.1 h
    have hjoin : joinLine "" line = line := rfl
    simp only [collect, Option.map_none, Option.getD_none, hjoin, hline, if_neg Bool.false_ne_true,
      List.map_cons, ih (n + 1) hlines]

/-- A written binding is read as the binding that it was. -/
theorem parse_render_bind {name : String} {t : Term} (hname : Token.isIdentifier name = true)
    (ht : t.Plain) : parse (Statement.bind name t).render = .ok (.bind name t) := by
  let equalsPos := 0 + name.toList.length + 1
  obtain ⟨us, hd, hscan⟩ := Term.writtenAs_renderAt .whole t ht.names (equalsPos + 1 + 1) [] trivial
  rw [List.append_nil, Scan.ofChars_nil] at hscan
  rw [Term.shown_of_references_eq_nil ht.references] at hd
  have hstatement : DerivesStatement
      (⟨.identifier, name, 0⟩ :: ⟨.equals, "=", equalsPos⟩ :: us) (.bind name t) :=
    .binding rfl rfl hd
  have htext : (Statement.bind name t).render.toList =
      name.toList ++ ' ' :: '=' :: ' ' :: (t.renderAt .whole).toList := by
    simp [Statement.render, Term.render]
  have hblank : Token.Separated (' ' :: '=' :: ' ' :: (t.renderAt .whole).toList) := rfl
  have hall : Scan.ofText (Statement.bind name t).render =
      Scan.prepend (⟨.identifier, name, 0⟩ :: ⟨.equals, "=", equalsPos⟩ :: us)
        ⟨[], .ok (equalsPos + 1 + 1 + (t.renderAt .whole).toList.length)⟩ := by
    rw [Scan.ofText, htext, Scan.ofChars_word 0 hname hblank, Scan.ofChars_blank _ (by decide),
      Scan.ofChars_symbol equalsPos (by decide) rfl, Scan.ofChars_blank _ (by decide), hscan,
      String.ofList_toList, Scan.prepend_prepend, Scan.prepend_prepend]
    rfl
  exact parse_of_scan hall hstatement

end Statement

end NormalOrder
