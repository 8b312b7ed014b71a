import Mathlib.Data.List.Basic
import NormalOrder.Proofs.Scanning
import NormalOrder.Text.Slice

/-!
# Tokens tile a text

The tokens of a text follow one another without overlap, every one of them stands in the text as it
is spelled, an identifier is as long as it can be, and what is left out between them is blank.
Reading ends at the end of the text or at the first character that is left out and is not blank.
There is only one way to cut a text like this, so reading can be described without following it from
left to right.
-/

namespace NormalOrder

namespace Text

variable {text word : String} {front rest : List Char} {start : Nat}

theorem lt_length_of_getElem? {i : Nat} {c : Char} (h : text.toList[i]? = some c) :
    i < text.length := by
  rw [← String.length_toList]
  exact (List.getElem?_eq_some_iff.1 h).1

theorem slice_of_append (h : text.toList = front ++ word.toList ++ rest) :
    slice text front.length (front.length + word.length : Nat) = word := by
  have hlength : text.length = front.length + word.length + rest.length := by
    simp only [← String.length_toList, h, List.length_append]
  have hstart : place text.length front.length = front.length := place_natCast (by omega)
  have hstop : place text.length (front.length + word.length : Nat) = front.length + word.length :=
    place_natCast (by omega)
  have htake : (front ++ word.toList).length = front.length + word.length := by
    rw [List.length_append, String.length_toList]
  rw [slice, hstart, hstop, h, ← htake, List.take_left, List.drop_left, String.ofList_toList]

/-- A slice of full length that is not empty stands in the text. -/
theorem exists_append_of_slice (hne : word ≠ "")
    (h : slice text start (start + word.length : Nat) = word) :
    ∃ front rest, text.toList = front ++ word.toList ++ rest ∧ front.length = start := by
  have hpositive : 0 < word.length := by
    rw [← String.length_toList, List.length_pos_iff]
    simpa using hne
  have hplace : ∀ i : Nat, place text.length i = min i text.length := by
    intro i
    simp only [place]
    split <;> omega
  have hword := congrArg String.toList h
  simp only [slice, hplace, String.toList_ofList] at hword
  have hlength := congrArg List.length hword
  simp only [List.length_drop, List.length_take, String.length_toList] at hlength
  have hfits : start + word.length ≤ text.length := by omega
  rw [Nat.min_eq_left hfits, Nat.min_eq_left (by omega)] at hword
  refine ⟨text.toList.take start, text.toList.drop (start + word.length), ?_, ?_⟩
  · have htake : (text.toList.take (start + word.length)).take start = text.toList.take start := by
      rw [List.take_take, Nat.min_eq_left (by omega)]
    rw [← hword, ← htake, List.take_append_drop, List.take_append_drop]
  · rw [List.length_take, String.length_toList]
    omega

end Text

namespace Token

def OpensWord (c : Char) : Prop :=
  c.isAlphanum = true ∨ c = '_'

def ContinuesWord (c : Char) : Prop :=
  OpensWord c ∨ c = '\x27'

def Kind.Spells : Kind → List Char → Prop
  | identifier, cs => ∃ c rest, cs = c :: rest ∧ OpensWord c ∧ ∀ d ∈ rest, ContinuesWord d
  | lambda, cs => cs = ['λ'] ∨ cs = ['\\']
  | dot, cs => cs = ['.']
  | lparen, cs => cs = ['(']
  | rparen, cs => cs = [')']
  | equals, cs => cs = ['=']
  | stop, cs => cs = []

def Opens (c : Char) : Prop :=
  ∃ kind : Kind, ∃ rest, kind.Spells (c :: rest)

def finish (t : Token) : Nat :=
  t.start + t.value.length

def Covers (t : Token) (i : Nat) : Prop :=
  t.start ≤ i ∧ i < t.finish

section Spelling

variable {c : Char} {kind kind' : Kind} {cs rest : List Char}

theorem opensWord_iff (c : Char) : OpensWord c ↔ isIdentifierStart c = true := by
  have hcode : c.isAlphanum = true ↔
      ((65 ≤ c.toNat ∧ c.toNat ≤ 90) ∨ (97 ≤ c.toNat ∧ c.toNat ≤ 122)) ∨
        48 ≤ c.toNat ∧ c.toNat ≤ 57 := by
    delta Char.isAlphanum Char.isAlpha Char.isUpper Char.isLower Char.isDigit
    simp only [Bool.or_eq_true, Bool.and_eq_true, decide_eq_true_eq, UInt32.le_iff_toNat_le,
      ge_iff_le]
    rfl
  rw [isIdentifierStart_iff, OpensWord, hcode]
  grind

theorem continuesWord_iff (c : Char) : ContinuesWord c ↔ isIdentifierPart c = true := by
  rw [ContinuesWord, opensWord_iff, isIdentifierPart, Bool.or_eq_true, beq_iff_eq]

theorem spells_identifier_iff : Kind.identifier.Spells cs ↔ isWord cs = true := by
  cases cs with
  | nil => simp [Kind.Spells, isWord]
  | cons c rest =>
    simp only [Kind.Spells, isWord, opensWord_iff, continuesWord_iff, Bool.and_eq_true,
      List.all_eq_true]
    constructor
    · rintro ⟨_, _, ⟨⟩, h⟩
      exact h
    · exact fun h => ⟨c, rest, rfl, h⟩

theorem symbol?_eq_some_iff : symbol? c = some kind ↔ kind ≠ .identifier ∧ kind.Spells [c] := by
  unfold symbol?
  split <;> cases kind <;> simp_all [Kind.Spells]

/-- A token is one character that is a symbol, or a word. -/
theorem spells_cons_iff :
    kind.Spells (c :: rest) ↔
      symbol? c = some kind ∧ rest = [] ∨ kind = .identifier ∧ isWord (c :: rest) = true := by
  rw [symbol?_eq_some_iff, ← spells_identifier_iff]
  cases kind with
  | identifier => simp
  | lambda =>
    simp only [Kind.Spells, List.cons.injEq]
    grind
  | _ => simp [Kind.Spells]

theorem isBlank_of_symbol? (h : symbol? c = some kind) : Text.isBlank c = false := by
  unfold symbol? at h
  split at h
  case h_7 => cases h
  all_goals decide

theorem symbol?_of_isIdentifierPart (h : isIdentifierPart c = true) : symbol? c = none := by
  rcases Bool.or_eq_true_iff.1 h with hstart | hprime
  · exact symbol?_of_isIdentifierStart hstart
  · rw [beq_iff_eq.1 hprime]
    rfl

theorem isIdentifierStart_of_isWord (h : isWord (c :: rest) = true) : isIdentifierStart c = true :=
  (Bool.and_eq_true_iff.1 h).1

theorem forall_of_isWord (h : isWord (c :: rest) = true) : ∀ d ∈ rest, isIdentifierPart d = true :=
  List.all_eq_true.1 (Bool.and_eq_true_iff.1 h).2

/-- The characters tell the kind. -/
theorem Kind.Spells.unique (h : kind.Spells cs) (h' : kind'.Spells cs) : kind = kind' := by
  cases cs with
  | nil => cases kind <;> cases kind' <;> simp_all [Kind.Spells]
  | cons c rest =>
    rcases spells_cons_iff.1 h with ⟨hc, -⟩ | ⟨rfl, hword⟩
    · rcases spells_cons_iff.1 h' with ⟨hc', -⟩ | ⟨rfl, hword'⟩
      · exact Option.some.inj (hc.symm.trans hc')
      · rw [symbol?_of_isIdentifierStart (isIdentifierStart_of_isWord hword')] at hc
        cases hc
    · rcases spells_cons_iff.1 h' with ⟨hc', -⟩ | ⟨rfl, -⟩
      · rw [symbol?_of_isIdentifierStart (isIdentifierStart_of_isWord hword)] at hc'
        cases hc'
      · rfl

theorem opens_iff : Opens c ↔ (∃ kind, symbol? c = some kind) ∨ isIdentifierStart c = true := by
  constructor
  · rintro ⟨kind, rest, h⟩
    rcases spells_cons_iff.1 h with ⟨hc, -⟩ | ⟨-, hword⟩
    · exact Or.inl ⟨kind, hc⟩
    · exact Or.inr (isIdentifierStart_of_isWord hword)
  · rintro (⟨kind, hc⟩ | hstart)
    · exact ⟨kind, [], (symbol?_eq_some_iff.1 hc).2⟩
    · exact ⟨.identifier, [], spells_identifier_iff.2 (by simp [isWord, hstart])⟩

theorem Opens.isBlank (h : Opens c) : Text.isBlank c = false := by
  rcases opens_iff.1 h with ⟨kind, hc⟩ | hstart
  · exact isBlank_of_symbol? hc
  · exact isBlank_of_isIdentifierStart hstart

end Spelling

theorem separated_iff {rest : List Char} :
    Separated rest ↔ ∀ c, rest.head? = some c → ¬ContinuesWord c := by
  cases rest with
  | nil => simp [Separated]
  | cons d rest => simp [Separated, continuesWord_iff]

theorem takeWhile_of_separated {cs rest : List Char} (hcs : ∀ c ∈ cs, isIdentifierPart c = true)
    (hrest : Separated rest) : (cs ++ rest).takeWhile isIdentifierPart = cs := by
  rw [List.takeWhile_append_of_pos hcs]
  cases rest with
  | nil => rw [List.takeWhile_nil, List.append_nil]
  | cons d rest =>
    have hd : ¬isIdentifierPart d = true := by simpa [Separated] using hrest
    rw [List.takeWhile_cons_of_neg hd, List.append_nil]

/-- Two tokens with the same text from their start on are the same, if they are as long as they can
be. -/
theorem spelled_alike {kind kind' : Kind} {cs cs' rest rest' : List Char} (h : kind.Spells cs)
    (h' : kind'.Spells cs') (hne : cs ≠ []) (hne' : cs' ≠ [])
    (hrest : kind = .identifier → Separated rest)
    (hrest' : kind' = .identifier → Separated rest') (hsame : cs ++ rest = cs' ++ rest') :
    kind = kind' ∧ cs = cs' := by
  cases cs with
  | nil => exact absurd rfl hne
  | cons c cs =>
  cases cs' with
  | nil => exact absurd rfl hne'
  | cons c' cs' =>
  rw [List.cons_append, List.cons_append] at hsame
  obtain ⟨rfl, htail⟩ := List.cons.inj hsame
  rcases spells_cons_iff.1 h with ⟨hc, rfl⟩ | ⟨rfl, hword⟩
  · rcases spells_cons_iff.1 h' with ⟨hc', rfl⟩ | ⟨rfl, hword'⟩
    · exact ⟨Option.some.inj (hc.symm.trans hc'), rfl⟩
    · rw [symbol?_of_isIdentifierStart (isIdentifierStart_of_isWord hword')] at hc
      cases hc
  · rcases spells_cons_iff.1 h' with ⟨hc', rfl⟩ | ⟨rfl, hword'⟩
    · rw [symbol?_of_isIdentifierStart (isIdentifierStart_of_isWord hword)] at hc'
      cases hc'
    · have hcs := takeWhile_of_separated (forall_of_isWord hword) (hrest rfl)
      have hcs' := takeWhile_of_separated (forall_of_isWord hword') (hrest' rfl)
      rw [htail, hcs'] at hcs
      exact ⟨rfl, by rw [hcs]⟩

/-- The token stands in the text as it is spelled, with the kind that is spelled so, and with all
characters that belong to it. -/
structure StandsIn (t : Token) (text : String) : Prop where
  nonempty : t.value ≠ ""
  slice_eq : Text.slice text t.start t.finish = t.value
  kind_iff : ∀ kind : Kind, kind.Spells t.value.toList ↔ kind = t.kind
  longest : t.kind = .identifier → ∀ c, text.toList[t.finish]? = some c → ¬ContinuesWord c

namespace StandsIn

variable {t : Token} {text : String} {front rest : List Char}

theorem getElem?_finish (htext : text.toList = front ++ t.value.toList ++ rest)
    (hstart : t.start = front.length) : text.toList[t.finish]? = rest.head? := by
  have hfinish : t.finish = (front ++ t.value.toList).length := by
    rw [finish, hstart, List.length_append, String.length_toList]
  rw [htext, hfinish, List.getElem?_append_right (Nat.le_refl _), Nat.sub_self,
    List.head?_eq_getElem?]

theorem of_append (htext : text.toList = front ++ t.value.toList ++ rest)
    (hstart : t.start = front.length) (hne : t.value ≠ "") (hkind : t.kind.Spells t.value.toList)
    (hrest : t.kind = .identifier → Separated rest) : t.StandsIn text := by
  refine ⟨hne, ?_, fun kind => ⟨fun h => h.unique hkind, fun h => h ▸ hkind⟩, ?_⟩
  · rw [finish, hstart]
    exact Text.slice_of_append htext
  · intro hidentifier
    rw [getElem?_finish htext hstart]
    exact separated_iff.1 (hrest hidentifier)

theorem spells (h : t.StandsIn text) : t.kind.Spells t.value.toList :=
  (h.kind_iff t.kind).2 rfl

/-- The text around a token. -/
theorem exists_append (h : t.StandsIn text) :
    ∃ front rest, text.toList = front ++ t.value.toList ++ rest ∧ t.start = front.length ∧
      (t.kind = .identifier → Separated rest) := by
  obtain ⟨front, rest, htext, hfront⟩ := Text.exists_append_of_slice h.nonempty h.slice_eq
  refine ⟨front, rest, htext, hfront.symm, fun hidentifier => separated_iff.2 ?_⟩
  rw [← getElem?_finish htext hfront.symm]
  exact h.longest hidentifier

theorem start_lt_finish (h : t.StandsIn text) : t.start < t.finish := by
  have hlength : t.value.length ≠ 0 := by
    rw [← String.length_toList]
    simpa using h.nonempty
  rw [finish]
  omega

/-- A token takes up a position in the text, and the first one holds a character that opens it. -/
theorem exists_opens (h : t.StandsIn text) : ∃ c, text.toList[t.start]? = some c ∧ Opens c := by
  obtain ⟨front, rest, htext, hstart, -⟩ := h.exists_append
  have hspells := h.spells
  cases hvalue : t.value.toList with
  | nil => exact absurd (String.toList_eq_nil_iff.1 hvalue) h.nonempty
  | cons c cs =>
    rw [hvalue] at htext hspells
    refine ⟨c, ?_, t.kind, cs, hspells⟩
    rw [htext, hstart]
    simp

theorem start_lt_length (h : t.StandsIn text) : t.start < text.length := by
  obtain ⟨c, hc, -⟩ := h.exists_opens
  exact Text.lt_length_of_getElem? hc

/-- The characters at the positions of a token are its own. -/
theorem mem_of_covers {i : Nat} {c : Char} (h : t.StandsIn text) (hi : t.Covers i)
    (hc : text.toList[i]? = some c) : c ∈ t.value.toList := by
  obtain ⟨front, rest, htext, hstart, -⟩ := h.exists_append
  obtain ⟨hle, hlt⟩ := hi
  rw [finish, ← String.length_toList] at hlt
  rw [htext, List.append_assoc, List.getElem?_append_right (by omega),
    List.getElem?_append_left (by omega)] at hc
  exact List.mem_of_getElem? hc

/-- What stands at a position can be read in one way only. -/
theorem unique {t' : Token} (h : t.StandsIn text) (h' : t'.StandsIn text)
    (hstart : t.start = t'.start) :
    t = t' := by
  obtain ⟨front, rest, htext, hfront, hrest⟩ := h.exists_append
  obtain ⟨front', rest', htext', hfront', hrest'⟩ := h'.exists_append
  have hlength : front.length = front'.length := by rw [← hfront, hstart, hfront']
  rw [List.append_assoc] at htext htext'
  obtain ⟨-, hsame⟩ := List.append_inj (htext.symm.trans htext') hlength
  obtain ⟨hkind, hvalue⟩ := spelled_alike h.spells h'.spells (by simpa using h.nonempty)
    (by simpa using h'.nonempty) hrest hrest' hsame
  have hvalue : t.value = t'.value := String.toList_injective hvalue
  cases t
  cases t'
  simp_all

end StandsIn

/-- A character that is not blank and that no token can start with. -/
def Stray (c : Char) : Prop :=
  Text.isBlank c = false ∧ ¬Opens c

end Token

namespace Scan

open Token

/-- How far the text has been read: to its end, or to the character that stopped the reading. -/
def reach (s : Scan) : Nat :=
  match s.ending with
  | .ok length => length
  | .error f => f.position

def Outside (s : Scan) (i : Nat) : Prop :=
  ∀ t ∈ s.tokens, ¬t.Covers i

/-- The reading has come to the end of the text, or to a stray character behind all tokens. -/
def EndsIn (s : Scan) (text : String) (pos : Nat) : Prop :=
  match s.ending with
  | .ok length => length = text.length
  | .error f => text.toList[f.position]? = some f.char ∧ Stray f.char ∧ pos ≤ f.position ∧
      ∀ t ∈ s.tokens, t.finish ≤ f.position

/-- The tokens tile the text from a position on. -/
structure Tiles (s : Scan) (text : String) (pos : Nat) : Prop where
  stands : ∀ t ∈ s.tokens, t.StandsIn text
  behind : ∀ t ∈ s.tokens, pos ≤ t.start
  ordered : s.tokens.Pairwise fun t u => t.finish ≤ u.start
  blank : ∀ i c, pos ≤ i → i < s.reach → text.toList[i]? = some c → s.Outside i →
    Text.isBlank c = true
  ending : s.EndsIn text pos

theorem EndsIn.mono {s : Scan} {text : String} {pos pos' : Nat} (h : s.EndsIn text pos')
    (hle : pos ≤ pos') : s.EndsIn text pos := by
  obtain ⟨tokens, f | length⟩ := s
  · obtain ⟨hchar, hstray, hpos, htokens⟩ := h
    exact ⟨hchar, hstray, Nat.le_trans hle hpos, htokens⟩
  · exact h

namespace Tiles

variable {s : Scan} {text : String} {pos : Nat} {c : Char}

section Steps

theorem at_end (h : text.length = pos) : Tiles ⟨[], .ok pos⟩ text pos := by
  refine ⟨by simp, by simp, .nil, ?_, h.symm⟩
  intro i c hpos hreach
  exact absurd hreach (Nat.not_lt.2 hpos)

theorem at_stray (hc : text.toList[pos]? = some c) (hstray : Stray c) :
    Tiles ⟨[], .error ⟨c, pos⟩⟩ text pos := by
  refine ⟨by simp, by simp, .nil, ?_, hc, hstray, Nat.le_refl _, by simp⟩
  intro i c hpos hreach
  exact absurd hreach (Nat.not_lt.2 hpos)

theorem before_blank (hc : text.toList[pos]? = some c) (hblank : Text.isBlank c = true)
    (hs : s.Tiles text (pos + 1)) : s.Tiles text pos := by
  refine ⟨hs.stands, fun t ht => Nat.le_of_succ_le (hs.behind t ht), hs.ordered, ?_,
    hs.ending.mono (Nat.le_succ pos)⟩
  intro i d hpos hreach hd houtside
  by_cases hi : i = pos
  · subst hi
    cases hc.symm.trans hd
    exact hblank
  · exact hs.blank i d (by omega) hreach hd houtside

theorem before_token {t : Token} (ht : t.StandsIn text) (hs : s.Tiles text t.finish) :
    (prepend [t] s).Tiles text t.start := by
  have hlt := ht.start_lt_finish
  refine ⟨List.forall_mem_cons.2 ⟨ht, hs.stands⟩, List.forall_mem_cons.2 ⟨Nat.le_refl _, ?_⟩,
    List.pairwise_cons.2 ⟨hs.behind, hs.ordered⟩, ?_, ?_⟩
  · intro u hu
    exact Nat.le_trans (Nat.le_of_lt hlt) (hs.behind u hu)
  · intro i c hpos hreach hc houtside
    obtain ⟨hnot, hrest⟩ := List.forall_mem_cons.1 houtside
    have hbehind : t.finish ≤ i := by
      by_contra hi
      exact hnot ⟨hpos, Nat.lt_of_not_le hi⟩
    exact hs.blank i c hbehind hreach hc hrest
  · have hending := hs.ending
    obtain ⟨tokens, f | length⟩ := s
    · obtain ⟨hchar, hstray, hpos, htokens⟩ := hending
      exact ⟨hchar, hstray, by omega, List.forall_mem_cons.2 ⟨hpos, htokens⟩⟩
    · exact hending

end Steps

section Inversion

variable (hs : s.Tiles text pos)

include hs

theorem eq_of_end (h : text.length ≤ pos) : s = ⟨[], .ok text.length⟩ := by
  have hnone : ∀ i d, pos ≤ i → text.toList[i]? ≠ some d := by
    intro i d hi hd
    have hlt := Text.lt_length_of_getElem? hd
    omega
  have htokens : s.tokens = [] := by
    refine List.eq_nil_iff_forall_not_mem.2 fun t ht => ?_
    obtain ⟨d, hd, -⟩ := (hs.stands t ht).exists_opens
    exact hnone t.start d (hs.behind t ht) hd
  have hending := hs.ending
  obtain ⟨tokens, f | length⟩ := s
  · obtain ⟨hchar, -, hpos, -⟩ := hending
    exact absurd hchar (hnone f.position f.char hpos)
  · cases htokens
    cases hending
    rfl

/-- A character within reach that is not blank belongs to a token. -/
theorem exists_covers {i : Nat} (hpos : pos ≤ i) (hi : i < s.reach) (hc : text.toList[i]? = some c)
    (hblank : Text.isBlank c = false) : ∃ t ∈ s.tokens, t.Covers i := by
  by_contra hnone
  have hoff := hs.blank i c hpos hi hc fun t ht hcovers => hnone ⟨t, ht, hcovers⟩
  exact Bool.false_ne_true (hblank.symm.trans hoff)

/-- No token starts where the character does not open one. -/
theorem start_ne (hc : text.toList[pos]? = some c) (hopens : ¬Opens c) :
    ∀ t ∈ s.tokens, t.start ≠ pos := by
  rintro t ht rfl
  obtain ⟨d, hd, hd'⟩ := (hs.stands t ht).exists_opens
  cases hc.symm.trans hd
  exact hopens hd'

theorem of_blank (hc : text.toList[pos]? = some c) (hblank : Text.isBlank c = true) :
    s.Tiles text (pos + 1) := by
  have hopens : ¬Opens c := fun h => Bool.false_ne_true (h.isBlank.symm.trans hblank)
  refine ⟨hs.stands, ?_, hs.ordered, ?_, ?_⟩
  · intro t ht
    have hne := hs.start_ne hc hopens t ht
    have hpos := hs.behind t ht
    omega
  · intro i d hi
    exact hs.blank i d (by omega)
  · have hending := hs.ending
    obtain ⟨tokens, f | length⟩ := s
    · obtain ⟨hchar, hstray, hpos, htokens⟩ := hending
      refine ⟨hchar, hstray, Nat.lt_of_le_of_ne hpos ?_, htokens⟩
      rintro rfl
      cases hc.symm.trans hchar
      exact Bool.false_ne_true (hstray.1.symm.trans hblank)
    · exact hending

theorem eq_of_stray (hc : text.toList[pos]? = some c) (hstray : Stray c) :
    s = ⟨[], .error ⟨c, pos⟩⟩ := by
  have hstart := hs.start_ne hc hstray.2
  have hreach : s.reach ≤ pos := by
    refine Nat.le_of_not_lt fun hlt => ?_
    obtain ⟨t, ht, hcovers⟩ := hs.exists_covers (Nat.le_refl _) hlt hc hstray.1
    exact hstart t ht (Nat.le_antisymm hcovers.1 (hs.behind t ht))
  have hending := hs.ending
  have hlt := Text.lt_length_of_getElem? hc
  obtain ⟨tokens, ⟨d, p⟩ | length⟩ := s
  · obtain ⟨hchar, -, hpos, htokens⟩ := hending
    obtain rfl : p = pos := Nat.le_antisymm hreach hpos
    cases hc.symm.trans hchar
    have hnil : tokens = [] := by
      refine List.eq_nil_iff_forall_not_mem.2 fun t ht => ?_
      have hbehind := hs.behind t ht
      have hlt := (hs.stands t ht).start_lt_finish
      exact Nat.not_lt_of_le (htokens t ht) (Nat.lt_of_le_of_lt hbehind hlt)
    rw [hnil]
  · change length = text.length at hending
    change length ≤ pos at hreach
    omega

/-- A token starts where the character opens one. -/
theorem exists_prepend (hc : text.toList[pos]? = some c) (hopens : Opens c) :
    ∃ t s', s = prepend [t] s' ∧ t.StandsIn text ∧ t.start = pos ∧ s'.Tiles text t.finish := by
  have hreach : pos < s.reach := by
    have hending := hs.ending
    have hlt := Text.lt_length_of_getElem? hc
    obtain ⟨tokens, f | length⟩ := s
    · obtain ⟨hchar, hstray, hpos, -⟩ := hending
      refine Nat.lt_of_le_of_ne hpos ?_
      rintro rfl
      cases hc.symm.trans hchar
      exact hstray.2 hopens
    · change length = text.length at hending
      change pos < length
      omega
  obtain ⟨t, ht, hcovers⟩ := hs.exists_covers (Nat.le_refl _) hreach hc hopens.isBlank
  have hbehind := hs.behind
  have hordered := hs.ordered
  obtain ⟨- | ⟨first, tokens⟩, ending⟩ := s
  · cases ht
  obtain ⟨hfirst, htokens⟩ := List.forall_mem_cons.1 hs.stands
  obtain ⟨hpos, -⟩ := List.forall_mem_cons.1 hbehind
  obtain ⟨hafter, hordered⟩ := List.pairwise_cons.1 hordered
  have hlt := hfirst.start_lt_finish
  -- A later token cannot cover the position, since the first one would have to end in front of it.
  have hstart : first.start = pos := by
    rcases List.mem_cons.1 ht with rfl | ht
    · exact Nat.le_antisymm hcovers.1 hpos
    · have hle := hafter t ht
      have hle' := hcovers.1
      omega
  refine ⟨first, ⟨tokens, ending⟩, rfl, hfirst, hstart, htokens, hafter, hordered, ?_, ?_⟩
  · intro i d hi hreach hd houtside
    refine hs.blank i d (by omega) hreach hd (List.forall_mem_cons.2 ⟨?_, houtside⟩)
    exact fun hcovers => Nat.not_le_of_lt hcovers.2 hi
  · have hending := hs.ending
    rcases ending with f | length
    · obtain ⟨hchar, hstray, -, hall⟩ := hending
      obtain ⟨hfinish, hall⟩ := List.forall_mem_cons.1 hall
      exact ⟨hchar, hstray, hfinish, hall⟩
    · exact hending

end Inversion

end Tiles

theorem Tiles.before_word {s : Scan} {text : String} {front word rest : List Char} {kind : Kind}
    (htext : text.toList = front ++ (word ++ rest)) (hne : word ≠ []) (hkind : kind.Spells word)
    (hrest : kind = .identifier → Separated rest) (hs : s.Tiles text (front.length + word.length)) :
    (prepend [⟨kind, String.ofList word, front.length⟩] s).Tiles text front.length := by
  have hvalue : (String.ofList word).toList = word := String.toList_ofList
  refine .before_token (.of_append ?_ rfl ?_ ?_ hrest) ?_
  · rw [hvalue, htext, List.append_assoc]
  · exact fun hempty => hne (String.ofList_eq_empty_iff.1 hempty)
  · rw [hvalue]
    exact hkind
  · rw [finish, ← String.length_toList, hvalue]
    exact hs

/-- A text is tiled in one way only. -/
theorem Tiles.unique {s s' : Scan} {text : String} {pos : Nat} (h : s.Tiles text pos)
    (h' : s'.Tiles text pos) : s = s' := by
  -- On what is left of the text: its first character decides what both tilings start with.
  induction hn : text.length - pos using Nat.strongRecOn generalizing s s' pos with
  | ind n ih =>
    cases hc : text.toList[pos]? with
    | none =>
      have hend : text.length ≤ pos := by
        rw [← String.length_toList]
        exact List.getElem?_eq_none_iff.1 hc
      rw [h.eq_of_end hend, h'.eq_of_end hend]
    | some c =>
      have hlt := Text.lt_length_of_getElem? hc
      by_cases hblank : Text.isBlank c = true
      · exact ih _ (by omega) (h.of_blank hc hblank) (h'.of_blank hc hblank) rfl
      by_cases hopens : Opens c
      · obtain ⟨t, rest, rfl, ht, rfl, hrest⟩ := h.exists_prepend hc hopens
        obtain ⟨t', rest', rfl, ht', hstart, hrest'⟩ := h'.exists_prepend hc hopens
        obtain rfl := ht'.unique ht hstart
        have hfinish := ht.start_lt_finish
        rw [ih _ (by omega) hrest hrest' rfl]
      · have hstray : Stray c := ⟨eq_false_of_ne_true hblank, hopens⟩
        rw [h.eq_of_stray hc hstray, h'.eq_of_stray hc hstray]

/-- Reading tiles the text from where it starts. -/
theorem tiles_ofChars (text : String) (pos : Nat) (cs : List Char) :
    ∀ front, text.toList = front ++ cs → front.length = pos → (ofChars pos cs).Tiles text pos := by
  fun_induction ofChars pos cs with
  | case1 pos =>
    rintro front htext rfl
    refine .at_end ?_
    rw [← String.length_toList, htext, List.append_nil]
  | case2 pos c rest hblank ih =>
    rintro front htext rfl
    have hc : text.toList[front.length]? = some c := by simp [htext]
    exact .before_blank hc hblank (ih (front ++ [c]) (by simpa using htext) (by simp))
  | case3 pos c rest hblank kind hkind ih =>
    rintro front htext rfl
    obtain ⟨hne, hspells⟩ := symbol?_eq_some_iff.1 hkind
    exact .before_word htext (List.cons_ne_nil c []) hspells (fun h => absurd h hne)
      (ih (front ++ [c]) (by simpa using htext) (by simp))
  | case4 pos c rest hblank hkind hstart word ih =>
    rintro front htext rfl
    have hword : isWord word = true := by simp [word, isWord, hstart]
    have hcut : text.toList = front ++ (word ++ rest.dropWhile isIdentifierPart) := by
      rw [htext, List.cons_append, List.takeWhile_append_dropWhile]
    exact .before_word hcut (List.cons_ne_nil c _) (spells_identifier_iff.2 hword)
      (fun _ => separated_dropWhile rest)
      (ih (front ++ word) (by rw [hcut, List.append_assoc]) List.length_append)
  | case5 pos c rest hblank hkind hstart =>
    rintro front htext rfl
    refine .at_stray (by simp [htext]) ⟨eq_false_of_ne_true hblank, fun hopens => ?_⟩
    rcases opens_iff.1 hopens with ⟨kind, hc⟩ | hc
    · cases hkind.symm.trans hc
    · exact hstart hc

/-- A symbol within reach is a token of its own. -/
theorem Tiles.exists_symbol {s : Scan} {text : String} {i : Nat} {c : Char} {kind : Kind}
    (h : s.Tiles text 0) (hi : i < s.reach) (hc : text.toList[i]? = some c)
    (hkind : symbol? c = some kind) : ∃ t ∈ s.tokens, t.start = i ∧ t.kind = kind := by
  obtain ⟨t, ht, hcovers⟩ := h.exists_covers (Nat.zero_le i) hi hc (isBlank_of_symbol? hkind)
  have hmem : c ∈ t.value.toList := (h.stands t ht).mem_of_covers hcovers hc
  have hspells := (h.stands t ht).spells
  refine ⟨t, ht, ?_⟩
  cases hvalue : t.value.toList with
  | nil =>
    rw [hvalue] at hmem
    cases hmem
  | cons d ds =>
    rw [hvalue] at hmem hspells
    rcases spells_cons_iff.1 hspells with ⟨hd, rfl⟩ | ⟨-, hword⟩
    · obtain rfl := List.mem_singleton.1 hmem
      obtain ⟨hle, hlt⟩ := hcovers
      rw [finish, ← String.length_toList, hvalue, List.length_singleton] at hlt
      exact ⟨by omega, Option.some.inj (hd.symm.trans hkind)⟩
    · have hnone : symbol? c = none := by
        rcases List.mem_cons.1 hmem with rfl | hmem
        · exact symbol?_of_isIdentifierStart (isIdentifierStart_of_isWord hword)
        · exact symbol?_of_isIdentifierPart (forall_of_isWord hword c hmem)
      cases hnone.symm.trans hkind

theorem tiles_ofText (text : String) : (ofText text).Tiles text 0 :=
  tiles_ofChars text 0 text.toList [] rfl rfl

section Faults

variable {s : Scan} {text : String}

/-- No token takes up the position, and its character is neither blank nor could it open a token. -/
def StrayAt (s : Scan) (text : String) (i : Nat) : Prop :=
  s.Outside i ∧ ∃ c, text.toList[i]? = some c ∧ Stray c

theorem Tiles.not_strayAt (h : s.Tiles text 0) {i : Nat} (hi : i < s.reach) :
    ¬s.StrayAt text i := by
  rintro ⟨houtside, c, hc, hstray⟩
  have hblank := h.blank i c (Nat.zero_le i) hi hc houtside
  exact Bool.false_ne_true (hstray.1.symm.trans hblank)

/-- Without a fault the text is read to its end. -/
theorem Tiles.ending_eq_ok (h : s.Tiles text 0) (hfault : s.fault? = none) :
    s.ending = .ok text.length := by
  have hending := h.ending
  obtain ⟨tokens, f | length⟩ := s
  · cases hfault
  · exact congrArg Except.ok hending

theorem Tiles.reach_eq (h : s.Tiles text 0) (hfault : s.fault? = none) : s.reach = text.length := by
  rw [reach, h.ending_eq_ok hfault]

/-- Reading stops at the first stray character. -/
theorem Tiles.fault?_eq_some_iff (h : s.Tiles text 0) {c : Char} {p : Nat} :
    s.fault? = some ⟨c, p⟩ ↔
      text.toList[p]? = some c ∧ s.StrayAt text p ∧ ∀ i < p, ¬s.StrayAt text i := by
  have hending := h.ending
  have hfree : ∀ i, i < s.reach → ¬s.StrayAt text i := fun i => h.not_strayAt
  obtain ⟨tokens, f | length⟩ := s
  · obtain ⟨hchar, hstray, -, htokens⟩ := hending
    have houtside : Scan.Outside ⟨tokens, .error f⟩ f.position :=
      fun t ht hcovers => Nat.not_lt_of_le (htokens t ht) hcovers.2
    constructor
    · intro hf
      cases Option.some.inj hf
      exact ⟨hchar, ⟨houtside, c, hchar, hstray⟩, hfree⟩
    · rintro ⟨hc, hat, hfirst⟩
      have hle : p ≤ f.position :=
        Nat.le_of_not_lt fun hlt => hfirst f.position hlt ⟨houtside, f.char, hchar, hstray⟩
      have hge : f.position ≤ p := Nat.le_of_not_lt fun hlt => hfree p hlt hat
      obtain rfl : p = f.position := Nat.le_antisymm hle hge
      cases hchar.symm.trans hc
      rfl
  · change length = text.length at hending
    constructor
    · rintro ⟨⟩
    · rintro ⟨hc, hat, -⟩
      have hlt := Text.lt_length_of_getElem? hc
      exact absurd hat (hfree p (hending ▸ hlt))

theorem fault?_eq_some {f : LexFault} : s.fault? = some f ↔ s.ending = .error f := by
  obtain ⟨tokens, f' | length⟩ := s
  · simp [fault?]
  · simp [fault?]

/-- Only what stands in front of a character that stops the reading matters for the tokens. -/
theorem ofText_sliceTo {f : LexFault} (h : (ofText text).fault? = some f) :
    ofText (Text.sliceTo text f.position) = ⟨(ofText text).tokens, .ok f.position⟩ := by
  obtain ⟨before, after, htext, hposition, hbefore⟩ := ofChars_before_fault (fault?_eq_some.1 h)
  have hlength : text.length = before.length + (after.length + 1) := by
    rw [← String.length_toList, htext, List.length_append, List.length_cons]
  have hplace : Text.place text.length f.position = before.length := by
    rw [Text.place_natCast (by omega), hposition, Nat.zero_add]
  rw [ofText, Text.sliceTo, hplace, htext, List.take_left, String.toList_ofList, hbefore]
  rfl

/-- Reading a text cuts it in the only way in which tokens tile it. It ends behind the text or at
the first stray character outside the tokens, and in that case the tokens are those of the text in
front of it. -/
theorem tokens_tile_text (text : String) :
    (ofText text).Tiles text 0 ∧ (∀ s : Scan, s.Tiles text 0 → s = ofText text) ∧
      ((ofText text).fault? = none ∧
          (ofText text).all = (ofText text).tokens ++ [⟨.stop, "", text.length⟩] ∨
        ∃ f, (ofText text).fault? = some f ∧ (ofText text).all = (ofText text).tokens) ∧
      ∀ c p,
        ((ofText text).fault? = some ⟨c, p⟩ ↔
          text.toList[p]? = some c ∧ (ofText text).StrayAt text p ∧
          ∀ i < p, ¬(ofText text).StrayAt text i) ∧
        ((ofText text).fault? = some ⟨c, p⟩ →
          ofText (Text.sliceTo text p) = ⟨(ofText text).tokens, .ok p⟩) := by
  have htiles := tiles_ofText text
  refine ⟨htiles, fun s hs => hs.unique htiles, ?_, fun c p =>
    ⟨htiles.fault?_eq_some_iff, ofText_sliceTo⟩⟩
  cases hfault : (ofText text).fault? with
  | none =>
    refine Or.inl ⟨rfl, ?_⟩
    rw [all, htiles.ending_eq_ok hfault]
    rfl
  | some f =>
    refine Or.inr ⟨f, rfl, ?_⟩
    rw [all, fault?_eq_some.1 hfault]

end Faults

end Scan

end NormalOrder
