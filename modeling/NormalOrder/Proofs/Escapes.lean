import Mathlib.Data.List.TakeWhile
import NormalOrder.Diagnostic
import NormalOrder.Text.Template

/-!
# Escape sequences

Painting a text puts escape sequences around its spans. Where the text has no escape character of
its own, taking the sequences out again gives the text, whatever they are. The texts that messages
are made of have none if the texts that go into them have none.

A template with plain fields shows the same whether it is filled with painted texts or with plain
ones: the texts are put into it as they are. A field that asks for more sees the escape sequences as
well.
-/

namespace NormalOrder.Text

def escapeChar : Char := '\x1b'

/-- A character between the bracket and the last character of an escape sequence. -/
def isParameter (c : Char) : Bool :=
  c.isDigit || c = ';'

/-- What comes after an escape sequence whose first character has been read. -/
def afterEscape? : List Char → Option (List Char)
  | '[' :: cs =>
    match cs.dropWhile isParameter with
    | 'm' :: rest => some rest
    | _ => none
  | _ => none

theorem length_of_afterEscape? {cs rest : List Char} (h : afterEscape? cs = some rest) :
    rest.length < cs.length := by
  unfold afterEscape? at h
  split at h
  · next cs =>
    split at h
    · next after hafter =>
      cases h
      have hlength := (List.dropWhile_suffix (l := cs) isParameter).length_le
      rw [hafter] at hlength
      simp only [List.length_cons] at hlength ⊢
      omega
    · cases h
  · cases h

def stripChars : List Char → List Char
  | [] => []
  | c :: cs =>
    if c = escapeChar then
      match _hrest : afterEscape? cs with
      | some rest => stripChars rest
      | none => c :: stripChars cs
    else c :: stripChars cs
termination_by cs => cs.length
decreasing_by
  · have hlength := length_of_afterEscape? _hrest
    simp only [List.length_cons]
    omega
  all_goals simp

def strip (s : String) : String :=
  String.ofList (stripChars s.toList)

inductive Escapes : List Char → Prop
  | nil : Escapes []
  | cons {parameters rest : List Char} (h : ∀ c ∈ parameters, isParameter c = true)
    (hrest : Escapes rest) : Escapes (escapeChar :: '[' :: (parameters ++ 'm' :: rest))

theorem Escapes.append {es es' : List Char} (h : Escapes es) (h' : Escapes es') :
    Escapes (es ++ es') := by
  induction h with
  | nil => exact h'
  | cons hparameters _ ih =>
    have hcons := Escapes.cons hparameters ih
    simpa using hcons

theorem stripChars_escapes {es : List Char} (h : Escapes es) (cs : List Char) :
    stripChars (es ++ cs) = stripChars cs := by
  induction h with
  | nil => rfl
  | @cons parameters rest hparameters _ ih =>
    have hafter : afterEscape? ('[' :: (parameters ++ 'm' :: (rest ++ cs))) =
        some (rest ++ cs) := by
      have hdrop : (parameters ++ 'm' :: (rest ++ cs)).dropWhile isParameter =
          'm' :: (rest ++ cs) := by
        rw [List.dropWhile_append_of_pos hparameters]
        rfl
      simp only [afterEscape?, hdrop]
    have hsplit : escapeChar :: '[' :: (parameters ++ 'm' :: rest) ++ cs =
        escapeChar :: '[' :: (parameters ++ 'm' :: (rest ++ cs)) := by simp
    rw [hsplit, stripChars, if_pos rfl]
    split
    · next found hfound =>
      rw [hafter] at hfound
      cases hfound
      exact ih
    · next hnone =>
      rw [hafter] at hnone
      cases hnone

theorem stripChars_append {cs : List Char} (h : escapeChar ∉ cs) (rest : List Char) :
    stripChars (cs ++ rest) = cs ++ stripChars rest := by
  induction cs with
  | nil => rfl
  | cons c cs ih =>
    obtain ⟨hc, hcs⟩ := not_or.1 fun hmem => h (List.mem_cons.2 hmem)
    rw [List.cons_append, stripChars, if_neg (fun he => hc he.symm), ih hcs]
    rfl

/-- Taking the escape sequences out of what is painted gives what is plain, whatever comes after
it. -/
def Shows (painted plain : List Char) : Prop :=
  ∀ rest, stripChars (painted ++ rest) = plain ++ stripChars rest

namespace Shows

variable {painted plain painted' plain' : List Char}

theorem of_clean (h : escapeChar ∉ plain) : Shows plain plain :=
  stripChars_append h

theorem of_escapes {es : List Char} (h : Escapes es) : Shows es [] :=
  stripChars_escapes h

theorem append (h : Shows painted plain) (h' : Shows painted' plain') :
    Shows (painted ++ painted') (plain ++ plain') := by
  intro rest
  rw [List.append_assoc, h, h', List.append_assoc]

theorem stripChars_eq (h : Shows painted plain) : stripChars painted = plain := by
  have hnil := h []
  simpa [stripChars] using hnil

end Shows

/-- Painting that leaves plain spans as they are and puts nothing but escape sequences around the
others. -/
structure Wraps (paint : Span → String) : Prop where
  plain : ∀ text, paint { text } = text
  wraps : ∀ s, ∃ before after, Escapes before ∧ Escapes after ∧
    (paint s).toList = before ++ (s.text.toList ++ after)

theorem escapes_escape {parameter : String} (h : parameter.toList.all isParameter = true) :
    Escapes (escape parameter).toList := by
  have hcons := Escapes.cons (List.all_eq_true.1 h) .nil
  simpa [escape, escapeChar] using hcons

/-- Both with and without colour, a span is shown by its text and escape sequences around it. -/
theorem wraps_render (colour : Bool) : Wraps (Span.render colour) := by
  cases colour with
  | false => exact ⟨fun _ => rfl, fun s => ⟨[], [], .nil, .nil, by simp [Span.render]⟩⟩
  | true =>
    have hbold : Escapes (escape "1").toList := escapes_escape (by decide)
    have hreset : Escapes (escape "0").toList := escapes_escape (by decide)
    refine ⟨fun _ => rfl, ?_⟩
    rintro ⟨text, style⟩
    cases style with
    | plain => exact ⟨[], [], .nil, .nil, by simp [Span.render]⟩
    | bold => exact ⟨_, _, hbold, hreset, by simp [Span.render]⟩
    | inked ink =>
      have hink : Escapes (escape ink.code).toList := by
        apply escapes_escape
        cases ink <;> decide
      exact ⟨_, _, hbold.append hink, hreset, by simp [Span.render]⟩

def Clean (s : String) : Prop :=
  escapeChar ∉ s.toList

instance (s : String) : Decidable (Clean s) :=
  inferInstanceAs (Decidable (escapeChar ∉ s.toList))

def Styled.Clean (t : Styled) : Prop :=
  ∀ s ∈ t, Text.Clean s.text

def Styled.paint (paint : Span → String) (t : Styled) : String :=
  String.join (t.map paint)

theorem Styled.paint_append (paint : Span → String) (t u : Styled) :
    (t ++ u).paint paint = t.paint paint ++ u.paint paint := by
  rw [Styled.paint, List.map_append, String.join_append]
  rfl

theorem Styled.content_append (t u : Styled) : (t ++ u).content = t.content ++ u.content :=
  Styled.paint_append Span.text t u

section Painting

variable {paint : Span → String}

theorem Wraps.shows (h : Wraps paint) {s : Span} {plain : List Char}
    (hs : Shows s.text.toList plain) :
    Shows (paint s).toList plain := by
  obtain ⟨before, after, hbefore, hafter, htext⟩ := h.wraps s
  have hall := (Shows.of_escapes hbefore).append (hs.append (.of_escapes hafter))
  rwa [List.append_nil, List.nil_append, ← htext] at hall

/-- The one text, painted, shows what the other says. -/
def Styled.Shows (paint : Span → String) (t u : Styled) : Prop :=
  Text.Shows (t.paint paint).toList u.content.toList

namespace Styled.Shows

variable {t u t' u' : Styled}

theorem append (h : Styled.Shows paint t u) (h' : Styled.Shows paint t' u') :
    Styled.Shows paint (t ++ t') (u ++ u') := by
  rw [Styled.Shows, paint_append, content_append, String.toList_append, String.toList_append]
  exact Text.Shows.append h h'

theorem plain (hpaint : Wraps paint) {painted said : String}
    (h : Text.Shows painted.toList said.toList) :
    Styled.Shows paint (Text.plain painted) (Text.plain said) := by
  simpa [Styled.Shows, Styled.paint, Styled.content, Text.plain, hpaint.plain] using h

theorem of_clean (hpaint : Wraps paint) (ht : t.Clean) : Styled.Shows paint t t := by
  induction t with
  | nil =>
    simp only [Styled.Shows, Styled.paint, Styled.content, List.map_nil]
    exact Text.Shows.of_clean (by decide)
  | cons s t ih =>
    obtain ⟨hs, hrest⟩ := List.forall_mem_cons.1 ht
    have hspan : Styled.Shows paint [s] [s] := by
      simpa [Styled.Shows, Styled.paint, Styled.content] using hpaint.shows (.of_clean hs)
    have hall := append hspan (ih hrest)
    rwa [List.singleton_append] at hall

theorem strip_eq (h : Styled.Shows paint t u) : strip (t.paint paint) = u.content := by
  rw [strip, h.stripChars_eq, String.ofList_toList]

end Styled.Shows

end Painting

section Clean

@[simp] theorem clean_append {a b : String} : Clean (a ++ b) ↔ Clean a ∧ Clean b := by
  simp [Clean, not_or]

theorem clean_quote : Clean "'" := by
  decide

theorem clean_ofList {cs : List Char} : Clean (String.ofList cs) ↔ escapeChar ∉ cs := by
  rw [Clean, String.toList_ofList]

theorem clean_join {texts : List String} (h : ∀ s ∈ texts, Clean s) :
    Clean (String.join texts) := by
  simpa [Clean] using h

theorem clean_toString_nat (n : Nat) : Clean (toString n) := by
  intro hmem
  have hdigits : escapeChar ∈ Nat.toDigits 10 n := by simpa using hmem
  exact absurd (Nat.isDigit_of_mem_toDigits (by decide) (by decide) hdigits) (by decide)

theorem clean_toString_int (n : Int) : Clean (toString n) := by
  cases n with
  | ofNat n => exact clean_toString_nat n
  | negSucc n => exact clean_append.2 ⟨by decide, clean_toString_nat (n + 1)⟩

theorem clean_sliceTo {s : String} (h : Clean s) (stop : Int) : Clean (sliceTo s stop) :=
  clean_ofList.2 fun hmem => h (List.mem_of_mem_take hmem)

theorem clean_sliceFrom {s : String} (h : Clean s) (start : Int) : Clean (sliceFrom s start) :=
  clean_ofList.2 fun hmem => h (List.mem_of_mem_drop hmem)

theorem clean_slice {s : String} (h : Clean s) (start stop : Int) : Clean (slice s start stop) :=
  clean_ofList.2 fun hmem => h (List.mem_of_mem_take (List.mem_of_mem_drop hmem))

theorem clean_repeated (n : Int) {c : Char} (h : c ≠ escapeChar) :
    Clean (Diagnostic.repeated n c) :=
  clean_ofList.2 fun hmem => h (List.eq_of_mem_replicate hmem).symm

namespace Styled

variable {t u : Styled} {text : String}

@[simp] theorem clean_nil : Styled.Clean [] :=
  fun _ hs => absurd hs List.not_mem_nil

@[simp] theorem clean_append : Styled.Clean (t ++ u) ↔ t.Clean ∧ u.Clean :=
  List.forall_mem_append

@[simp] theorem clean_plain : Styled.Clean (plain text) ↔ Text.Clean text := by
  simp [Styled.Clean, plain]

@[simp] theorem clean_bold : Styled.Clean (bold text) ↔ Text.Clean text := by
  simp [Styled.Clean, bold]

@[simp] theorem clean_inked {ink : Ink} : Styled.Clean (inked ink text) ↔ Text.Clean text := by
  simp [Styled.Clean, inked]

@[simp] theorem clean_quoted : Styled.Clean (quoted text) ↔ Text.Clean text := by
  simp [quoted, clean_quote]

end Styled

end Clean

section Quoting

theorem escapeChar_notMem_hexDigits (width n : Nat) : escapeChar ∉ hexDigits width n := by
  have hdigit : ∀ d < 16, Nat.digitChar d ≠ escapeChar := by decide
  induction width generalizing n with
  | zero => exact List.not_mem_nil
  | succ width ih =>
    intro hmem
    rcases List.mem_append.1 hmem with hmem | hmem
    · exact ih _ hmem
    · exact hdigit _ (Nat.mod_lt n (by decide)) (List.mem_singleton.1 hmem).symm

theorem escapeChar_notMem_escapedCode (c : Char) : escapeChar ∉ escapedCode c := by
  have hcode {mark : Char} (hmark : escapeChar ≠ mark) (width : Nat) :
      escapeChar ∉ '\\' :: mark :: hexDigits width c.toNat := by
    simp only [List.mem_cons, not_or]
    exact ⟨by decide, hmark, escapeChar_notMem_hexDigits width c.toNat⟩
  rw [escapedCode]
  split
  · exact hcode (by decide) 2
  · split
    · exact hcode (by decide) 4
    · exact hcode (by decide) 8

/-- The escape character cannot be printed, so it stands in quotes by its code only. -/
theorem escapeChar_notMem_escapedChar {quote : Char} (hquote : escapeChar ≠ quote) (c : Char) :
    escapeChar ∉ escapedChar quote c := by
  have hpair {mark : Char} (hmark : escapeChar ≠ mark) : escapeChar ∉ ['\\', mark] := by
    simp only [List.mem_cons, List.not_mem_nil, or_false, not_or]
    exact ⟨by decide, hmark⟩
  unfold escapedChar
  split
  · next hc =>
    apply hpair
    rcases hc with rfl | rfl
    · exact hquote
    · decide
  split
  · exact hpair (by decide)
  split
  · exact hpair (by decide)
  split
  · exact hpair (by decide)
  split
  · next hprintable =>
    have hescape : isPrintable escapeChar = false := by decide +kernel
    rw [List.mem_singleton]
    rintro rfl
    rw [hescape] at hprintable
    cases hprintable
  · exact escapeChar_notMem_escapedCode c

theorem clean_inQuotes (s : String) : Clean (inQuotes s) := by
  have hquoted {quote : Char} (hquote : escapeChar ≠ quote) :
      escapeChar ∉ quote :: s.toList.flatMap (escapedChar quote) ++ [quote] := by
    simp only [List.cons_append, List.mem_cons, List.mem_append, List.mem_flatMap, not_or,
      not_exists]
    refine ⟨hquote, ?_, hquote, List.not_mem_nil⟩
    rintro c ⟨-, hmem⟩
    exact escapeChar_notMem_escapedChar hquote c hmem
  rw [inQuotes, clean_ofList]
  split
  · exact hquoted (by decide)
  · exact hquoted (by decide)

end Quoting

namespace Template

section Plain

/-- The field names a value and asks for nothing else. -/
def Field.IsPlain (f : Field) : Prop :=
  f.conversion = none ∧ f.spec = [] ∧ f.name.all (fun c => !startsPart c) = true

def Piece.IsPlain : Piece → Prop
  | literal _ => True
  | field f => f.IsPlain

instance : DecidablePred Field.IsPlain :=
  fun _ => inferInstanceAs (Decidable (_ ∧ _ ∧ _))

instance : DecidablePred Piece.IsPlain
  | .literal _ => inferInstanceAs (Decidable True)
  | .field f => inferInstanceAs (Decidable f.IsPlain)

end Plain

def IsPlain (template : String) : Prop :=
  ∀ p ∈ (scan template.toList).1, p.IsPlain

instance : DecidablePred IsPlain :=
  fun template => inferInstanceAs (Decidable (∀ p ∈ (scan template.toList).1, p.IsPlain))

section Faults

structure Fault.Clean (fault : Fault) : Prop where
  kind : Text.Clean fault.kind
  message : Text.Clean fault.message

/-- Nothing has to be decoded if the two texts are given as lists of characters. -/
theorem Fault.Clean.of_eq {fault : Fault} {kind message : List Char}
    (hkind : fault.kind = String.ofList kind) (hmessage : fault.message = String.ofList message)
    (h : escapeChar ∉ kind ++ message) : fault.Clean := by
  rw [List.mem_append, not_or] at h
  refine ⟨?_, ?_⟩
  · rw [hkind]
    exact clean_ofList.2 h.1
  · rw [hmessage]
    exact clean_ofList.2 h.2

theorem clean_of_takeName {bracketed : Bool} {name cs : List Char} {fault : Fault}
    (h : takeName bracketed name cs = .error fault) : fault.Clean := by
  fun_induction takeName bracketed name cs with
  | case1 =>
    cases h
    exact .of_eq rfl rfl (by decide +kernel)
  | case2 name c rest ih => exact ih h
  | case3 =>
    cases h
    exact .of_eq rfl rfl (by decide +kernel)
  | case4 => cases h
  | case5 bracketed name c rest _ _ _ ih => exact ih h

theorem clean_of_takeSpec {depth : Nat} {spec cs : List Char} {fault : Fault}
    (h : takeSpec depth spec cs = .error fault) : fault.Clean := by
  fun_induction takeSpec depth spec cs with
  | case1 =>
    cases h
    exact .of_eq rfl rfl (by decide +kernel)
  | case2 depth spec rest ih => exact ih h
  | case3 => cases h
  | case4 spec rest depth _ ih => exact ih h
  | case5 depth spec c rest _ _ ih => exact ih h

theorem clean_of_takeFormat {f : Field} {stop : Char} {rest : List Char} {fault : Fault}
    (h : takeFormat f stop rest = .error fault) : fault.Clean := by
  unfold takeFormat at h
  split at h
  · cases h
  · split at h
    · split at h
      · next hspec =>
        cases h
        exact clean_of_takeSpec hspec
      · cases h
    · cases h
      exact .of_eq rfl rfl (by decide +kernel)

theorem clean_of_takeField {cs : List Char} {fault : Fault} (h : takeField cs = .error fault) :
    fault.Clean := by
  unfold takeField at h
  split at h
  · next hname =>
    cases h
    exact clean_of_takeName hname
  · cases h
    exact .of_eq rfl rfl (by decide +kernel)
  · cases h
    exact .of_eq rfl rfl (by decide +kernel)
  · exact clean_of_takeFormat h
  · exact clean_of_takeFormat h

theorem clean_of_scan {cs : List Char} {fault : Fault} (h : (scan cs).2 = some fault) :
    fault.Clean := by
  fun_induction scan cs with
  | case1 => cases h
  | case2 c rest _ more ih => exact ih h
  | case3 c rest _ _ more ih => exact ih h
  | case4 =>
    cases h
    exact .of_eq rfl rfl (by decide +kernel)
  | case5 =>
    cases h
    exact .of_eq rfl rfl (by decide +kernel)
  | case6 c rest _ _ _ _ fault' hfield =>
    cases h
    exact clean_of_takeField hfield
  | case7 c rest _ _ _ _ f after hfield more ih => exact ih h

theorem mem_of_literal_mem_scan {cs : List Char} {c : Char} (h : .literal c ∈ (scan cs).1) :
    c ∈ cs := by
  fun_induction scan cs with
  | case1 => cases h
  | case2 d rest _ more ih =>
    rcases List.mem_cons.1 h with h | h
    · cases h
      exact List.mem_cons_self
    · exact List.mem_cons_of_mem d (ih h)
  | case3 d rest _ _ more ih =>
    rcases List.mem_cons.1 h with h | h
    · cases h
      exact List.mem_cons_self
    · exact List.mem_cons_of_mem d (List.mem_of_mem_tail (ih h))
  | case4 => cases h
  | case5 => cases h
  | case6 => cases h
  | case7 d rest _ _ _ _ f after hfield more ih =>
    have hmore := (List.mem_cons.1 h).resolve_left nofun
    exact List.mem_cons_of_mem d ((suffix_of_takeField hfield).subset (ih hmore))

theorem clean_of_number? {name : List Char} {fault : Fault} (h : number? name = .error fault) :
    fault.Clean := by
  have hnumber {fault : Format.Fault} (hname : Format.takeNumber name = .error fault) :
      fault = .tooManyDigits := by
    rw [Format.takeNumber] at hname
    split at hname
    · cases hname
    · split at hname
      · cases hname
        rfl
      · cases hname
  rw [number?] at h
  split at h
  · next hname =>
    cases h
    obtain rfl := hnumber hname
    exact .of_eq rfl rfl (by decide +kernel)
  · cases h
  · cases h

theorem clean_of_resolve {numbering : Numbering} {name : List Char} {fault : Fault}
    (h : resolve numbering name = .error fault) : fault.Clean := by
  rw [resolve.eq_def] at h
  split at h
  · split at h
    · cases h
      exact .of_eq rfl rfl (by decide +kernel)
    · cases h
    · cases h
  · split at h
    · next hnumber =>
      cases h
      exact clean_of_number? hnumber
    · cases h
      exact ⟨clean_ofList.2 (by decide), clean_inQuotes _⟩
    · cases h
      exact .of_eq rfl rfl (by decide +kernel)
    · cases h

theorem clean_missing (index : Nat) : (Fault.missing index).Clean := by
  refine ⟨clean_ofList.2 (by decide), clean_append.2 ⟨clean_append.2 ⟨?_, ?_⟩, ?_⟩⟩
  · exact clean_ofList.2 (by decide)
  · exact clean_toString_nat index
  · exact clean_ofList.2 (by decide)

end Faults

section Filling

variable {ω : Type} {objects : Objects ω}
  {expand expand' : Numbering → List Char → Except Fault (List Char × Numbering)}

/-- A plain field takes a value as it is. -/
theorem fillField_of_isPlain {f : Field} (hf : f.IsPlain) (arguments : List Argument)
    (numbering : Numbering) :
    fillField objects (arguments.map .given) expand numbering f =
      match resolve numbering f.name with
      | .error fault => .error fault
      | .ok (index, numbering) =>
        match arguments[index]? with
        | none => .error (.missing index)
        | some a => .ok (a.render.toList, numbering) := by
  obtain ⟨hconversion, hspec, hname⟩ := hf
  have htake : f.name.takeWhile (fun c => !startsPart c) = f.name :=
    List.takeWhile_eq_self_iff.2 (List.all_eq_true.1 hname)
  have hdrop : f.name.dropWhile (fun c => !startsPart c) = [] :=
    List.dropWhile_eq_nil_iff.2 (List.all_eq_true.1 hname)
  have hparts : parts [] = ([], none) := by rw [parts]
  rw [fillField, lookUp, htake, hdrop, hparts, hconversion, hspec]
  cases resolve numbering f.name with
  | error fault => rfl
  | ok place =>
    obtain ⟨index, numbering⟩ := place
    simp only [bind, Except.bind, List.getElem?_map]
    cases arguments[index]? with
    | none => rfl
    | some a => rfl

inductive Agree : Except Fault (List Char × Numbering) → Except Fault (List Char × Numbering) → Prop
  | fails {fault : Fault} (h : fault.Clean) : Agree (.error fault) (.error fault)
  | fills {painted plain : List Char} {numbering : Numbering} (h : Shows painted plain) :
    Agree (.ok (painted, numbering)) (.ok (plain, numbering))

namespace Agree

variable {r r' : Except Fault (List Char × Numbering)}

theorem literal {c : Char} (hc : c ≠ escapeChar) (h : Agree r r') :
    Agree (do
        let (more, numbering) ← r
        return (c :: more, numbering))
      (do
        let (more, numbering) ← r'
        return (c :: more, numbering)) := by
  have hshows : Shows [c] [c] := .of_clean fun hmem => hc (List.mem_singleton.1 hmem).symm
  cases h with
  | fails hfault => exact .fails hfault
  | fills hmore => exact .fills (hshows.append hmore)

theorem andThen (h : Agree r r')
    {rest rest' : Numbering → Except Fault (List Char × Numbering)}
    (hrest : ∀ numbering, Agree (rest numbering) (rest' numbering)) :
    Agree (do
        let (text, numbering) ← r
        let (more, numbering) ← rest numbering
        return (text ++ more, numbering))
      (do
        let (text, numbering) ← r'
        let (more, numbering) ← rest' numbering
        return (text ++ more, numbering)) := by
  cases h with
  | fails hfault => exact .fails hfault
  | @fills painted plain numbering hshows =>
    have hmore := hrest numbering
    simp only [bind, Except.bind]
    generalize rest numbering = more, rest' numbering = more' at hmore
    cases hmore with
    | fails hfault => exact .fails hfault
    | fills hmore => exact .fills (hshows.append hmore)

/-- A fault that a template ends with comes after everything that stands in front of it. -/
theorem ending (h : Agree r r') {fault? : Option Fault}
    (hclean : ∀ fault, fault? = some fault → fault.Clean) :
    Agree (do
        let filled ← r
        match fault? with
        | some fault => .error fault
        | none => return filled)
      (do
        let filled ← r'
        match fault? with
        | some fault => .error fault
        | none => return filled) := by
  cases h with
  | fails hfault => exact .fails hfault
  | fills hshows =>
    cases fault? with
    | some fault => exact .fails (hclean fault rfl)
    | none => exact .fills hshows

end Agree

variable {arguments : List Argument} {f : Argument → Argument}

theorem agree_fillField (hf : ∀ a ∈ arguments, Shows (f a).render.toList a.render.toList)
    {field : Field} (hfield : field.IsPlain) (numbering : Numbering) :
    Agree (fillField objects ((arguments.map f).map .given) expand numbering field)
      (fillField objects (arguments.map .given) expand' numbering field) := by
  rw [fillField_of_isPlain hfield, fillField_of_isPlain hfield]
  cases hresolve : resolve numbering field.name with
  | error fault => exact .fails (clean_of_resolve hresolve)
  | ok place =>
    obtain ⟨index, numbering'⟩ := place
    simp only [List.getElem?_map]
    cases hindex : arguments[index]? with
    | none => exact .fails (clean_missing index)
    | some a => exact .fills (hf a (List.mem_of_getElem? hindex))

theorem agree_fillPieces (hf : ∀ a ∈ arguments, Shows (f a).render.toList a.render.toList)
    {pieces : List Piece} (hpieces : ∀ p ∈ pieces, p.IsPlain)
    (hclean : ∀ c, .literal c ∈ pieces → c ≠ escapeChar) (numbering : Numbering) :
    Agree (fillPieces objects ((arguments.map f).map .given) expand numbering pieces)
      (fillPieces objects (arguments.map .given) expand' numbering pieces) := by
  induction pieces generalizing numbering with
  | nil => exact .fills (.of_clean List.not_mem_nil)
  | cons piece pieces ih =>
    obtain ⟨hpiece, hrest⟩ := List.forall_mem_cons.1 hpieces
    have hmore := ih hrest fun c hc => hclean c (List.mem_cons_of_mem piece hc)
    cases piece with
    | literal c =>
      rw [fillPieces, fillPieces]
      exact (hmore numbering).literal (hclean c List.mem_cons_self)
    | field field =>
      rw [fillPieces, fillPieces]
      exact (agree_fillField hf hpiece numbering).andThen hmore

/-- A plain template filled with painted texts shows what it is filled with the texts themselves. -/
theorem agree_fillFrom (objects : Objects ω) {template : String} (hplain : IsPlain template)
    (hclean : Text.Clean template)
    (hf : ∀ a ∈ arguments, Shows (f a).render.toList a.render.toList) (depth : Nat) :
    Agree (fillFrom objects ((arguments.map f).map .given) (depth + 1) .undecided template.toList)
      (fillFrom objects (arguments.map .given) (depth + 1) .undecided template.toList) := by
  have hliteral : ∀ c, .literal c ∈ (scan template.toList).1 → c ≠ escapeChar := by
    rintro c hc rfl
    exact hclean (mem_of_literal_mem_scan hc)
  rw [fillFrom, fillFrom]
  exact (agree_fillPieces hf hplain hliteral .undecided).ending fun _ => clean_of_scan

/-- Plain fields do not tell a number from the text that shows it. -/
theorem fillPieces_map (hf : ∀ a, (f a).render = a.render) {pieces : List Piece}
    (hpieces : ∀ p ∈ pieces, p.IsPlain) (numbering : Numbering) :
    fillPieces objects ((arguments.map f).map .given) expand numbering pieces =
      fillPieces objects (arguments.map .given) expand' numbering pieces := by
  induction pieces generalizing numbering with
  | nil => rfl
  | cons piece pieces ih =>
    obtain ⟨hpiece, hrest⟩ := List.forall_mem_cons.1 hpieces
    cases piece with
    | literal c => rw [fillPieces, fillPieces, ih hrest]
    | field field =>
      have hfield : fillField objects ((arguments.map f).map .given) expand numbering field =
          fillField objects (arguments.map .given) expand' numbering field := by
        rw [fillField_of_isPlain hpiece, fillField_of_isPlain hpiece]
        simp only [List.getElem?_map]
        cases resolve numbering field.name with
        | error fault => rfl
        | ok place =>
          obtain ⟨index, numbering'⟩ := place
          cases harguments : arguments[index]? with
          | none => simp only [harguments, Option.map_none]
          | some a => simp only [harguments, Option.map_some, hf]
      rw [fillPieces, fillPieces, hfield]
      simp only [ih hrest]

end Filling

section Filled

variable {ω : Type} (objects : Objects ω) {template : String} (hplain : IsPlain template)
  {arguments : List Argument} {f : Argument → Argument}

include hplain

theorem fill_map (hf : ∀ a, (f a).render = a.render) :
    fill objects (arguments.map f) template = fill objects arguments template := by
  rw [fill, fill, fillFrom, fillFrom, fillPieces_map hf hplain]

/-- A plain template filled with painted texts shows what it is filled with the texts themselves,
unless it cannot be filled with the one or the other. -/
theorem fill_map_of_shows (hclean : Text.Clean template)
    (hf : ∀ a ∈ arguments, Shows (f a).render.toList a.render.toList) :
    (∃ fault : Fault, fault.Clean ∧ fill objects (arguments.map f) template = .error fault ∧
      fill objects arguments template = .error fault) ∨
    ∃ painted said, Shows painted.toList said.toList ∧
      fill objects (arguments.map f) template = .ok painted ∧
      fill objects arguments template = .ok said := by
  have hagree := agree_fillFrom objects hplain hclean hf 1
  rw [fill, fill]
  generalize fillFrom objects ((arguments.map f).map .given) 2 .undecided template.toList = painted,
    fillFrom objects (arguments.map .given) 2 .undecided template.toList = filled at hagree
  cases hagree with
  | @fails fault h => exact .inl ⟨fault, h, rfl, rfl⟩
  | @fills painted plain numbering h =>
    refine .inr ⟨String.ofList painted, String.ofList plain, ?_, rfl, rfl⟩
    rwa [String.toList_ofList, String.toList_ofList]

end Filled

end Template

end NormalOrder.Text
