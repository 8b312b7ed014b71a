import NormalOrder.Token.Lexer

/-!
# Reading words, symbols and blanks

What reading does at the start of a text, for each kind of thing that can stand there. An identifier
is read to its end if what follows does not go on with it.
-/

namespace NormalOrder

namespace Token

def isWord : List Char → Bool
  | [] => false
  | c :: cs => isIdentifierStart c && cs.all isIdentifierPart

def isIdentifier (name : String) : Bool :=
  isWord name.toList

/-- Characters that do not go on with an identifier in front of them. -/
def Separated : List Char → Prop
  | [] => True
  | c :: _ => isIdentifierPart c = false

theorem isIdentifierStart_iff (c : Char) :
    isIdentifierStart c = true ↔
      (97 ≤ c.toNat ∧ c.toNat ≤ 122) ∨ (65 ≤ c.toNat ∧ c.toNat ≤ 90) ∨
        (48 ≤ c.toNat ∧ c.toNat ≤ 57) ∨ c = '_' := by
  simp only [isIdentifierStart, Bool.or_eq_true, Bool.and_eq_true, decide_eq_true_eq, beq_iff_eq,
    or_assoc]
  rfl

theorem isBlank_of_isIdentifierStart {c : Char} (h : isIdentifierStart c = true) :
    Text.isBlank c = false := by
  have hrange : 33 ≤ c.toNat ∧ c.toNat ≤ 122 := by
    rcases (isIdentifierStart_iff c).1 h with h | h | h | rfl
    · omega
    · omega
    · omega
    · decide
  simp only [Text.isBlank, Bool.or_eq_false_iff, Bool.and_eq_false_iff, decide_eq_false_iff_not,
    beq_eq_false_iff_ne]
  omega

theorem symbol?_of_isIdentifierStart {c : Char} (h : isIdentifierStart c = true) :
    symbol? c = none := by
  cases hk : symbol? c with
  | none => rfl
  | some kind =>
    unfold symbol? at hk
    split at hk
    case h_7 => cases hk
    all_goals exact absurd h (by decide)

theorem isWord_append {cs ds : List Char} (hc : isWord cs = true)
    (hd : ∀ d ∈ ds, isIdentifierPart d = true) : isWord (cs ++ ds) = true := by
  cases cs with
  | nil => cases hc
  | cons c cs =>
    simp only [isWord, List.cons_append, List.all_append, Bool.and_eq_true] at hc ⊢
    exact ⟨hc.1, hc.2, List.all_eq_true.2 hd⟩

theorem isWord_of_isPrefix {cs ds : List Char} (h : cs <+: ds) (hne : cs ≠ [])
    (hd : isWord ds = true) : isWord cs = true := by
  obtain ⟨rest, rfl⟩ := h
  cases cs with
  | nil => exact absurd rfl hne
  | cons c cs =>
    simp only [isWord, List.cons_append, List.all_append, Bool.and_eq_true] at hd ⊢
    exact ⟨hd.1, hd.2.1⟩

theorem separated_dropWhile (cs : List Char) : Separated (cs.dropWhile isIdentifierPart) := by
  induction cs with
  | nil => trivial
  | cons c cs ih =>
    by_cases hc : isIdentifierPart c = true
    · rw [List.dropWhile_cons_of_pos hc]
      exact ih
    · rw [List.dropWhile_cons_of_neg hc]
      exact eq_false_of_ne_true hc

theorem Separated.of_append {cs ds : List Char} (h : Separated (cs ++ ds)) : Separated cs := by
  cases cs with
  | nil => trivial
  | cons c cs => exact h

end Token

namespace Scan

def prepend (us : List Token) (s : Scan) : Scan := { s with tokens := us ++ s.tokens }

theorem prepend_prepend (us vs : List Token) (s : Scan) :
    prepend us (prepend vs s) = prepend (us ++ vs) s := by
  simp only [prepend, List.append_assoc]

theorem ofChars_nil (pos : Nat) : ofChars pos [] = ⟨[], .ok pos⟩ := by
  rw [ofChars.eq_def]

theorem ofChars_blank (pos : Nat) {c : Char} (h : Text.isBlank c = true) (rest : List Char) :
    ofChars pos (c :: rest) = ofChars (pos + 1) rest := by
  rw [ofChars.eq_def]
  simp only [if_pos h]

theorem ofChars_symbol (pos : Nat) {c : Char} {kind : Token.Kind} (hblank : Text.isBlank c = false)
    (hkind : Token.symbol? c = some kind) (rest : List Char) :
    ofChars pos (c :: rest) = prepend [⟨kind, c.toString, pos⟩] (ofChars (pos + 1) rest) := by
  rw [ofChars.eq_def]
  simp only [hblank, hkind]
  rfl

theorem ofChars_word (pos : Nat) {cs : List Char} (h : Token.isWord cs = true) {rest : List Char}
    (hrest : Token.Separated rest) :
    ofChars pos (cs ++ rest) =
      prepend [⟨.identifier, String.ofList cs, pos⟩] (ofChars (pos + cs.length) rest) := by
  cases cs with
  | nil => cases h
  | cons c cs =>
    simp only [Token.isWord, Bool.and_eq_true, List.all_eq_true] at h
    obtain ⟨hc, hcs⟩ := h
    have htake : rest.takeWhile Token.isIdentifierPart = [] := by
      cases rest with
      | nil => rfl
      | cons d ds => exact List.takeWhile_cons_of_neg (by simpa [Token.Separated] using hrest)
    have hdrop : rest.dropWhile Token.isIdentifierPart = rest := by
      cases rest with
      | nil => rfl
      | cons d ds => exact List.dropWhile_cons_of_neg (by simpa [Token.Separated] using hrest)
    rw [List.cons_append, ofChars.eq_def]
    simp only [Token.isBlank_of_isIdentifierStart hc, Token.symbol?_of_isIdentifierStart hc,
      if_pos hc, List.takeWhile_append_of_pos hcs, List.dropWhile_append_of_pos hcs, htake, hdrop,
      List.append_nil]
    rfl

theorem ending_eq_ok {pos length : Nat} {cs : List Char}
    (h : (ofChars pos cs).ending = .ok length) :
    length = pos + cs.length := by
  fun_induction ofChars pos cs with
  | case1 pos =>
    cases h
    rfl
  | case2 pos c rest hblank ih =>
    rw [ih h, List.length_cons]
    omega
  | case3 pos c rest hblank kind hkind ih =>
    rw [ih h, List.length_cons]
    omega
  | case4 pos c rest hblank hkind hstart word ih =>
    have hcut := congrArg List.length (rest.takeWhile_append_dropWhile
      (p := Token.isIdentifierPart))
    rw [List.length_append] at hcut
    rw [ih h, List.length_cons, List.length_cons]
    omega
  | case5 pos c rest hblank hkind hstart => cases h

/-- The tokens in front of a character that starts none are all that stands in front of it, and it
is there that the reading stops. -/
theorem ofChars_before_fault {pos : Nat} {cs : List Char} {f : LexFault}
    (h : (ofChars pos cs).ending = .error f) :
    ∃ before after, cs = before ++ f.char :: after ∧ f.position = pos + before.length ∧
      ofChars pos before = ⟨(ofChars pos cs).tokens, .ok f.position⟩ := by
  fun_induction ofChars pos cs with
  | case1 pos => cases h
  | case2 pos c rest hblank ih =>
    obtain ⟨before, after, hrest, hposition, hbefore⟩ := ih h
    refine ⟨c :: before, after, by rw [hrest, List.cons_append], ?_, ?_⟩
    · rw [hposition, List.length_cons]
      omega
    · rw [ofChars_blank pos hblank, hbefore]
  | case3 pos c rest hblank kind hkind ih =>
    obtain ⟨before, after, hrest, hposition, hbefore⟩ := ih h
    refine ⟨c :: before, after, by rw [hrest, List.cons_append], ?_, ?_⟩
    · rw [hposition, List.length_cons]
      omega
    · rw [ofChars_symbol pos (eq_false_of_ne_true hblank) hkind, hbefore]
      rfl
  | case4 pos c rest hblank hkind hstart word ih =>
    obtain ⟨before, after, hrest, hposition, hbefore⟩ := ih h
    have hword : Token.isWord word = true := by
      simp [word, Token.isWord, hstart]
    have hseparated : Token.Separated before := by
      have hdrop := Token.separated_dropWhile rest
      rw [hrest] at hdrop
      exact hdrop.of_append
    refine ⟨word ++ before, after, ?_, ?_, ?_⟩
    · rw [List.append_assoc, ← hrest]
      simp [word]
    · rw [hposition, List.length_append]
      omega
    · rw [ofChars_word pos hword hseparated, hbefore]
      rfl
  | case5 pos c rest hblank hkind hstart =>
    cases h
    exact ⟨[], rest, rfl, rfl, ofChars_nil pos⟩

end Scan

end NormalOrder
