import Mathlib.Data.List.DropRight
import NormalOrder.Proofs.Grammar.Parsing
import NormalOrder.Proofs.Lines

/-!
# Indented texts

A text may stand behind blanks. They move its tokens and do nothing else: the text is read as the
same statement, it goes on in the next line or not as before, and its comment starts at the same
place. A text that is read as a statement has no character that starts no token, and closes every
parenthesis.
-/

namespace NormalOrder

def Token.shift (offset : Nat) (t : Token) : Token :=
  { t with start := t.start + offset }

namespace Scan

def shift (offset : Nat) (s : Scan) : Scan where
  tokens := s.tokens.map (Token.shift offset)
  ending :=
    match s.ending with
    | .ok length => .ok (length + offset)
    | .error f => .error { f with position := f.position + offset }

theorem fault?_shift_eq_none_iff (offset : Nat) (s : Scan) :
    (s.shift offset).fault? = none ↔ s.fault? = none := by
  obtain ⟨tokens, f | length⟩ := s
  · constructor <;> rintro ⟨⟩
  · constructor <;> exact fun _ => rfl

/-- What is read from a place further on has its tokens further on. -/
theorem ofChars_add (offset pos : Nat) (cs : List Char) :
    ofChars (pos + offset) cs = (ofChars pos cs).shift offset := by
  fun_induction ofChars pos cs with
  | case1 pos =>
    rw [ofChars_nil]
    rfl
  | case2 pos c rest hblank ih => rw [ofChars_blank _ hblank, Nat.add_right_comm, ih]
  | case3 pos c rest hblank kind hkind ih =>
    rw [ofChars_symbol _ (Bool.eq_false_iff.2 hblank) hkind, Nat.add_right_comm, ih]
    rfl
  | case4 pos c rest hblank hkind hstart word ih =>
    rw [ofChars.eq_def]
    simp only [hblank, hkind, hstart, if_true, Bool.false_eq_true, if_false]
    rw [Nat.add_right_comm, ih]
    rfl
  | case5 pos c rest hblank hkind hstart =>
    rw [ofChars.eq_def]
    simp only [hblank, hkind, hstart, Bool.false_eq_true, if_false]
    rfl

theorem ofChars_blanks {blanks : List Char} (h : ∀ c ∈ blanks, Text.isBlank c = true) (pos : Nat)
    (cs : List Char) : ofChars pos (blanks ++ cs) = ofChars (pos + blanks.length) cs := by
  induction blanks generalizing pos with
  | nil => rfl
  | cons c blanks ih =>
    obtain ⟨hc, hblanks⟩ := List.forall_mem_cons.1 h
    rw [List.cons_append, ofChars_blank pos hc, ih hblanks, List.length_cons, Nat.add_assoc,
      Nat.add_comm 1]

/-- If all of a text is read, each of its characters is a blank or belongs to a token. -/
theorem forall_of_fault?_eq_none (pos : Nat) {cs : List Char} (h : (ofChars pos cs).fault? = none) :
    ∀ c ∈ cs, Text.isBlank c = true ∨ (Token.symbol? c).isSome = true ∨
      Token.isIdentifierPart c = true := by
  fun_induction ofChars pos cs with
  | case1 pos => simp
  | case2 pos c rest hblank ih => exact List.forall_mem_cons.2 ⟨.inl hblank, ih h⟩
  | case3 pos c rest hblank kind hkind ih =>
    exact List.forall_mem_cons.2 ⟨.inr (.inl (by simp [hkind])), ih h⟩
  | case4 pos c rest hblank hkind hstart word ih =>
    have hrest := ih h
    refine List.forall_mem_cons.2 ⟨.inr (.inr ?_), ?_⟩
    · simp [Token.isIdentifierPart, hstart]
    · intro d hd
      rw [← List.takeWhile_append_dropWhile (p := Token.isIdentifierPart) (l := rest)] at hd
      rcases List.mem_append.1 hd with hword | hafter
      · exact .inr (.inr (List.mem_takeWhile_imp hword))
      · exact hrest d hafter
  | case5 pos c rest hblank hkind hstart => cases h

/-- A character that is the only spelling of a kind of token occurs as often as tokens of that
kind. -/
theorem count_eq_countP {d : Char} {kind : Token.Kind}
    (hd : ∀ c, Token.symbol? c = some kind ↔ c = d)
    (hblank : Text.isBlank d = false) (hpart : Token.isIdentifierPart d = false) (pos : Nat)
    {cs : List Char} (h : (ofChars pos cs).fault? = none) :
    cs.count d = (ofChars pos cs).tokens.countP (·.kind = kind) := by
  have hidentifier : kind ≠ .identifier := by
    rintro rfl
    exact Token.symbol?_ne_identifier d ((hd d).2 rfl)
  fun_induction ofChars pos cs with
  | case1 pos => rfl
  | case2 pos c rest hc ih =>
    have hne : c ≠ d := by
      rintro rfl
      exact Bool.false_ne_true (hblank.symm.trans hc)
    rw [List.count_cons_of_ne hne, ih h]
  | case3 pos c rest hc kind' hkind ih =>
    have hiff : c = d ↔ kind' = kind := by
      rw [← hd, hkind, Option.some.injEq]
    simp only [cons, List.count_cons, List.countP_cons, ih h, beq_iff_eq, hiff, decide_eq_true_eq]
  | case4 pos c rest hc hkind hstart word ih =>
    have hword : ∀ x ∈ word, x ≠ d := by
      intro x hx
      refine Token.ne_of_isIdentifierPart (Token.forall_isIdentifierPart ?_ x hx) hpart
      simp [word, Token.isWord, hstart]
    have hcs : c :: rest = word ++ rest.dropWhile Token.isIdentifierPart := by
      rw [List.cons_append, List.takeWhile_append_dropWhile]
    rw [hcs, List.count_append, List.count_eq_zero_of_not_mem fun hm => hword d hm rfl, ih h,
      Nat.zero_add]
    exact (List.countP_cons_of_neg (by simpa using hidentifier.symm)).symm
  | case5 pos c rest hc hkind hstart => cases h

end Scan

namespace Statement

theorem Derives.map {g : Token → Token} (hkind : ∀ u, (g u).kind = u.kind)
    (hvalue : ∀ u, (g u).value = u.value) {n : Nonterminal} {ts : List Token} {t : Term}
    (h : Derives n ts t) : Derives n (ts.map g) t := by
  induction h with
  | abstractionTerm _ ih => exact .abstractionTerm ih
  | applicationTerm _ ih => exact .applicationTerm ih
  | @abstraction binder param dot ts b hbinder hparam hdot _ ih =>
    rw [← hvalue param]
    exact .abstraction ((hkind _).trans hbinder) ((hkind _).trans hparam) ((hkind _).trans hdot) ih
  | atoms _ ih => exact .atoms ih
  | trailing _ _ ihf iha =>
    rw [List.map_append]
    exact .trailing ihf iha
  | single _ ih => exact .single ih
  | apply _ _ ihf iha =>
    rw [List.map_append]
    exact .apply ihf iha
  | @identifier x hx =>
    rw [← hvalue x]
    exact .identifier ((hkind x).trans hx)
  | enclosed hopening hclosing _ ih =>
    rw [List.map_cons, List.map_append]
    exact .enclosed ((hkind _).trans hopening) ((hkind _).trans hclosing) ih

/-- Where the tokens of a statement start does not matter. -/
theorem DerivesStatement.of_map_shift {offset : Nat} {ts : List Token} {statement : Statement}
    (h : DerivesStatement (ts.map (Token.shift offset)) statement) :
    DerivesStatement ts statement := by
  let back (u : Token) : Token := { u with start := u.start - offset }
  have hback : (ts.map (Token.shift offset)).map back = ts := by
    rw [List.map_map]
    exact List.map_id'' (fun u => by simp [back, Token.shift]) ts
  have hterm : ∀ {us t}, Derives .term us t → Derives .term (us.map back) t :=
    fun hd => hd.map (g := back) (fun _ => rfl) fun _ => rfl
  rw [← hback]
  generalize ts.map (Token.shift offset) = us at h
  cases h with
  | @binding name equals us t hname hequals hd =>
    have hname' : (back name).kind = .identifier := hname
    have hequals' : (back equals).kind = .equals := hequals
    exact .binding hname' hequals' (hterm hd)
  | bare hd => exact .bare (hterm hd)

theorem Derives.countP_parentheses {n : Nonterminal} {ts : List Token} {t : Term}
    (h : Derives n ts t) : ts.countP (·.kind = .lparen) = ts.countP (·.kind = .rparen) := by
  induction h with
  | abstractionTerm _ ih => exact ih
  | applicationTerm _ ih => exact ih
  | abstraction hbinder hparam hdot _ ih => simpa [hbinder, hparam, hdot] using ih
  | atoms _ ih => exact ih
  | trailing _ _ ihf iha => rw [List.countP_append, List.countP_append, ihf, iha]
  | single _ ih => exact ih
  | apply _ _ ihf iha => rw [List.countP_append, List.countP_append, ihf, iha]
  | identifier hx => simp [hx]
  | enclosed hopening hclosing _ ih => simp [hopening, hclosing, ih]

theorem DerivesStatement.countP_parentheses {ts : List Token} {statement : Statement}
    (h : DerivesStatement ts statement) :
    ts.countP (·.kind = .lparen) = ts.countP (·.kind = .rparen) := by
  cases h with
  | binding hname hequals hd => simpa [hname, hequals] using hd.countP_parentheses
  | bare hd => exact hd.countP_parentheses

section Read

variable {text : String} {statement : Statement} (h : parse text = .ok statement)

include h

/-- A statement closes all parentheses that it opens. -/
theorem count_parentheses_of_parse : text.toList.count '(' = text.toList.count ')' := by
  obtain ⟨hfault, hd⟩ := derives_of_parse h
  have hopening : ∀ c, Token.symbol? c = some .lparen ↔ c = '(' := by
    intro c
    unfold Token.symbol?
    split <;> simp_all
  have hclosing : ∀ c, Token.symbol? c = some .rparen ↔ c = ')' := by
    intro c
    unfold Token.symbol?
    split <;> simp_all
  calc
    text.toList.count '(' = (Scan.ofText text).tokens.countP (·.kind = .lparen) :=
      Scan.count_eq_countP hopening (by decide) (by decide) 0 hfault
    _ = (Scan.ofText text).tokens.countP (·.kind = .rparen) := hd.countP_parentheses
    _ = text.toList.count ')' :=
      (Scan.count_eq_countP hclosing (by decide) (by decide) 0 hfault).symm

theorem goesOn_of_parse : goesOn text = false := by
  rw [goesOn, count_parentheses_of_parse h]
  simp

/-- The mark of commands is part of no statement. -/
theorem not_mem_of_parse {c : Char} (hblank : Text.isBlank c = false)
    (hsymbol : Token.symbol? c = none) (hpart : Token.isIdentifierPart c = false) :
    c ∉ text.toList := by
  intro hc
  rcases Scan.forall_of_fault?_eq_none 0 (derives_of_parse h).1 c hc with h | h | h
  · exact Bool.false_ne_true (hblank.symm.trans h)
  · rw [hsymbol] at h
    cases h
  · exact Bool.false_ne_true (hpart.symm.trans h)

end Read

end Statement

namespace Text

theorem toList_trimEnd (s : String) : (trimEnd s).toList = s.toList.rdropWhile isBlank :=
  String.toList_ofList

theorem rdropWhile_append {α : Type} (p : α → Bool) (cs ds : List α) :
    (cs ++ ds).rdropWhile p =
      if ds.all p then cs.rdropWhile p else cs ++ ds.rdropWhile p := by
  have hempty : (ds.reverse.dropWhile p).isEmpty = ds.all p := by
    rw [Bool.eq_iff_iff, List.isEmpty_iff, List.dropWhile_eq_nil_iff, List.all_eq_true]
    simp
  rw [List.rdropWhile, List.reverse_append, List.dropWhile_append, hempty]
  split
  · rfl
  · rw [List.reverse_append, List.reverse_reverse]
    rfl

theorem mem_rdropWhile {α : Type} {p : α → Bool} {cs : List α} {c : α} (hc : c ∈ cs)
    (hp : p c = false) : c ∈ cs.rdropWhile p := by
  rw [← List.rdropWhile_append_rtakeWhile (p := p) (l := cs)] at hc
  rcases List.mem_append.1 hc with h | h
  · exact h
  · exact absurd (List.mem_rtakeWhile_imp h) (by simp [hp])

theorem not_mem_of_isBlank {blanks : List Char} (h : ∀ c ∈ blanks, isBlank c = true) {c : Char}
    (hc : isBlank c = false) : c ∉ blanks :=
  fun hm => Bool.false_ne_true (hc.symm.trans (h c hm))

/-- The first text is the second one behind some blanks. -/
def Indents (text inner : String) : Prop :=
  ∃ blanks : List Char, (∀ c ∈ blanks, isBlank c = true) ∧ text.toList = blanks ++ inner.toList

namespace Indents

variable {text inner : String}

theorem refl (text : String) : Indents text text :=
  ⟨[], by simp, rfl⟩

theorem trimStart (text : String) : Indents text (trimStart text) := by
  refine ⟨text.toList.takeWhile isBlank, fun c hc => List.mem_takeWhile_imp hc, ?_⟩
  rw [Text.trimStart, String.toList_ofList, List.takeWhile_append_dropWhile]

theorem append (h : Indents text inner) (rest : String) :
    Indents (text ++ rest) (inner ++ rest) := by
  obtain ⟨blanks, hblanks, htext⟩ := h
  refine ⟨blanks, hblanks, ?_⟩
  rw [String.toList_append, String.toList_append, htext, List.append_assoc]

theorem isBlankText (h : Indents text inner) : isBlankText inner = isBlankText text := by
  obtain ⟨blanks, hblanks, htext⟩ := h
  rw [Text.isBlankText, Text.isBlankText, htext, List.all_append, List.all_eq_true.2 hblanks,
    Bool.true_and]

theorem goesOn (h : Indents text inner) : Statement.goesOn inner = Statement.goesOn text := by
  obtain ⟨blanks, hblanks, htext⟩ := h
  have hcount : ∀ d, isBlank d = false → text.toList.count d = inner.toList.count d := by
    intro d hd
    rw [htext, List.count_append, List.count_eq_zero_of_not_mem (not_mem_of_isBlank hblanks hd),
      Nat.zero_add]
  rw [Statement.goesOn, Statement.goesOn, hcount '(' (by decide), hcount ')' (by decide)]

/-- An indented text is read as the statement that it is without its indentation. -/
theorem parse (h : Indents text inner) {statement : Statement}
    (hp : Statement.parse text = .ok statement) : Statement.parse inner = .ok statement := by
  obtain ⟨blanks, hblanks, htext⟩ := h
  obtain ⟨hfault, hd⟩ := Statement.derives_of_parse hp
  have hscan : Scan.ofText text = (Scan.ofText inner).shift blanks.length := by
    rw [Scan.ofText, htext, Scan.ofChars_blanks hblanks, Scan.ofChars_add]
    rfl
  rw [hscan] at hfault hd
  exact Statement.parse_of_derives ((Scan.fault?_shift_eq_none_iff _ _).1 hfault) hd.of_map_shift

end Indents

end Text

namespace Statement

open Text

theorem dropComment_append_of_not_mem {cs : List Char} (h : ';' ∉ cs) (ds : List Char) :
    dropComment (cs ++ ds) = cs ++ dropComment ds := by
  induction cs with
  | nil => rfl
  | cons c cs ih =>
    obtain ⟨hc, hcs⟩ := not_or.1 fun hm => h (List.mem_cons.2 hm)
    rw [List.cons_append, dropComment, ih hcs, List.cons_append]
    rintro _ rfl
    exact absurd rfl hc

/-- A comment hides what follows it; without one, the rest may have a comment of its own. -/
theorem dropComment_append (cs : List Char) {ds : List Char} (h : ds.head? ≠ some ';') :
    dropComment (cs ++ ds) =
      if dropComment cs = cs then cs ++ dropComment ds else dropComment cs := by
  fun_induction dropComment cs with
  | case1 => rfl
  | case2 rest => rfl
  | case3 c rest hc ih =>
    have hcons : dropComment (c :: (rest ++ ds)) = c :: dropComment (rest ++ ds) := by
      rw [dropComment]
      rintro tail rfl htail
      cases rest with
      | nil => exact h (by simpa using congrArg List.head? htail)
      | cons d rest =>
        obtain ⟨rfl, -⟩ := List.cons.inj htail
        exact hc rest rfl rfl
    rw [List.cons_append, hcons, ih]
    split <;> simp_all

theorem dropComment_isPrefix (cs : List Char) : dropComment cs <+: cs := by
  fun_induction dropComment cs with
  | case1 => exact List.prefix_rfl
  | case2 rest => exact List.nil_prefix
  | case3 c rest hc ih => exact (List.prefix_cons_inj c).2 ih

def Uncommented (cs : List Char) : Prop :=
  dropComment cs = cs

namespace Uncommented

theorem dropComment (cs : List Char) : Uncommented (dropComment cs) := by
  fun_induction Statement.dropComment cs with
  | case1 => rfl
  | case2 rest => rfl
  | case3 c rest hc ih =>
    rw [Uncommented, Statement.dropComment, ih]
    rintro tail rfl htail
    obtain ⟨more, hmore⟩ := dropComment_isPrefix rest
    rw [htail] at hmore
    exact hc _ rfl hmore.symm

theorem of_isPrefix {cs ds : List Char} (h : cs <+: ds) (hd : Uncommented ds) : Uncommented cs := by
  obtain ⟨es, rfl⟩ := h
  fun_induction Statement.dropComment cs with
  | case1 => rfl
  | case2 rest => cases hd
  | case3 c rest hc ih =>
    have hrest : Uncommented (rest ++ es) := by
      rw [Uncommented, List.cons_append, Statement.dropComment] at hd
      · exact (List.cons.inj hd).2
      · rintro tail rfl htail
        rw [htail] at hd
        cases hd
    rw [Uncommented, Statement.dropComment, ih hrest]
    exact hc

end Uncommented

theorem toList_tidy (line : String) :
    (tidy line).toList = (dropComment line.toList).rdropWhile isBlank := by
  rw [tidy, toList_trimEnd, String.toList_ofList]

theorem uncommented_tidy (line : String) : Uncommented (tidy line).toList := by
  have hfront := List.rdropWhile_prefix isBlank (dropComment line.toList)
  rw [toList_tidy]
  exact .of_isPrefix hfront (.dropComment _)

/-- Joined with a text that has no comment, a line keeps its own. -/
theorem dropComment_join {pending : String} (hpending : Uncommented pending.toList)
    (line : String) :
    dropComment (pending ++ " " ++ line).toList =
      pending.toList ++ ' ' :: dropComment line.toList := by
  have hjoin : (pending ++ " " ++ line).toList = pending.toList ++ ' ' :: line.toList := by simp
  have hspace : ';' ∉ [' '] := by decide
  have hrest : dropComment (' ' :: line.toList) = ' ' :: dropComment line.toList :=
    dropComment_append_of_not_mem hspace _
  rw [Uncommented] at hpending
  rw [hjoin, dropComment_append _ (by simp), if_pos hpending, hrest]

/-- What a line adds is still there when blanks and comment are gone. -/
theorem mem_tidy_joinLine {pending line : String} {c : Char} (hpending : Uncommented pending.toList)
    (hblank : isBlank c = false) (hc : c ∈ pending.toList ∨ c ∈ dropComment line.toList) :
    c ∈ (tidy (joinLine pending line)).toList := by
  rw [toList_tidy]
  refine mem_rdropWhile ?_ hblank
  rw [joinLine]
  split
  · next hempty =>
    rw [String.isEmpty_iff.1 hempty] at hc
    simpa using hc
  · rw [dropComment_join hpending]
    rcases hc with hc | hc
    · exact List.mem_append_left _ hc
    · exact List.mem_append_right _ (List.mem_cons_of_mem _ hc)

theorem tidy_trimEnd (line : String) : tidy (trimEnd line) = tidy line := by
  let blanks := line.toList.rtakeWhile isBlank
  have hblanks : ∀ c ∈ blanks, isBlank c = true := fun c hc => List.mem_rtakeWhile_imp hc
  have hsemicolon : ';' ∉ blanks := not_mem_of_isBlank hblanks (by decide)
  have hline : line.toList = (trimEnd line).toList ++ blanks := by
    rw [toList_trimEnd, List.rdropWhile_append_rtakeWhile]
  apply String.toList_injective
  rw [toList_tidy, toList_tidy, hline, dropComment_append]
  split
  · next h =>
    rw [h, dropComment_of_not_mem hsemicolon, rdropWhile_append,
      if_pos (List.all_eq_true.2 hblanks)]
  · rfl
  · intro h
    exact hsemicolon (List.mem_of_mem_head? h)

end Statement

namespace Text.Indents

/-- The comment and the blanks at the end are the same with and without an indentation. -/
theorem tidy {text inner : String} (h : Indents text inner) :
    Indents (Statement.tidy text) (Statement.tidy inner) := by
  obtain ⟨blanks, hblanks, htext⟩ := h
  have hsemicolon : ';' ∉ blanks := not_mem_of_isBlank hblanks (by decide)
  have htidy : (Statement.tidy text).toList =
      if (Statement.dropComment inner.toList).all isBlank then blanks.rdropWhile isBlank
      else blanks ++ (Statement.tidy inner).toList := by
    rw [Statement.toList_tidy, htext, Statement.dropComment_append_of_not_mem hsemicolon,
      rdropWhile_append, Statement.toList_tidy]
  split at htidy
  · next hall =>
    -- Nothing is left of a text that is blank in front of its comment.
    have hinner : (Statement.tidy inner).toList = [] := by
      rw [Statement.toList_tidy, List.rdropWhile_eq_nil_iff]
      exact List.all_eq_true.1 hall
    refine ⟨[], by simp, ?_⟩
    rw [htidy, hinner, List.append_nil, List.rdropWhile_eq_nil_iff]
    exact hblanks
  · exact ⟨blanks, hblanks, htidy⟩

theorem tidy_trim (line : String) : Indents (Statement.tidy line) (Statement.tidy (trim line)) := by
  rw [trim, Statement.tidy_trimEnd]
  exact (trimStart line).tidy

end Text.Indents

end NormalOrder
