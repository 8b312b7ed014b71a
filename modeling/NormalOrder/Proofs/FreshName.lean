import Mathlib.Data.Finset.Card
import Mathlib.Data.List.DropRight
import Mathlib.Order.Interval.Finset.Nat
import NormalOrder.Proofs.Scanning
import NormalOrder.Term.Substitution

/-!
# Fresh names

Different numbers make different names, so among one more candidates than there are names to avoid,
one is new, and the search for the first of them ends there. A fresh name for an identifier is an
identifier: its stem is a part of the identifier from the start, and digits may follow.
-/

namespace NormalOrder

namespace Fresh

/-- What is numbered of a name: the name without the digits at its end, or all of a name that is
nothing but digits. -/
inductive StemOf (name : String) : String → Prop
  | front {stem : String} {digits : List Char} {last : Char}
    (hname : name.toList = stem.toList ++ digits) (hdigits : ∀ c ∈ digits, isAsciiDigit c = true)
    (hlast : stem.toList.getLast? = some last) (hother : isAsciiDigit last = false) :
    StemOf name stem
  | whole (hdigits : ∀ c ∈ name.toList, isAsciiDigit c = true) : StemOf name name

theorem stemOf_stem (name : String) : StemOf name (stem name) := by
  have hkept : (name.toList.reverse.dropWhile isAsciiDigit).reverse =
      name.toList.rdropWhile isAsciiDigit :=
    rfl
  simp only [stem, hkept, List.isEmpty_iff]
  split
  · next hnone => exact .whole (List.rdropWhile_eq_nil_iff.1 hnone)
  · next hne =>
    have hdigits : ∀ c ∈ name.toList.rtakeWhile isAsciiDigit, isAsciiDigit c = true :=
      fun c hc => List.mem_rtakeWhile_imp hc
    have hother := List.rdropWhile_last_not isAsciiDigit name.toList hne
    refine .front ?_ hdigits ?_ (eq_false_of_ne_true hother)
    · rw [String.toList_ofList, List.rdropWhile_append_rtakeWhile]
    · rw [String.toList_ofList, List.getLast?_eq_some_getLast hne]

theorem candidate_injective (stem : String) :
    Function.Injective fun i : Nat => stem ++ toString i := by
  intro i j h
  have hd : Nat.toDigits 10 i = Nat.toDigits 10 j := by
    simpa using congrArg String.toList h
  calc
    i = Nat.ofDigitChars 10 (Nat.toDigits 10 i) 0 := Nat.ofDigitChars_ten_toDigits.symm
    _ = j := by rw [hd, Nat.ofDigitChars_ten_toDigits]

/-- Candidates that are all to be avoided are not more than the names to be avoided. -/
theorem le_card_of_candidates {stem : String} {avoid : List String} {k : Nat}
    (h : ∀ j, 1 ≤ j → j < k → stem ++ toString j ∈ avoid) : k ≤ avoid.toFinset.card + 1 := by
  have hmaps : ∀ j ∈ Finset.Ico 1 k, stem ++ toString j ∈ avoid.toFinset := by
    intro j hj
    obtain ⟨h₁, h₂⟩ := Finset.mem_Ico.1 hj
    exact List.mem_toFinset.2 (h j h₁ h₂)
  have hcard := Finset.card_le_card_of_injOn _ hmaps (candidate_injective stem).injOn
  rw [Nat.card_Ico] at hcard
  omega

theorem le_search (stem : String) (avoid : List String) (fuel i : Nat) :
    i ≤ search stem avoid fuel i := by
  induction fuel generalizing i with
  | zero => exact Nat.le_refl i
  | succ fuel ih =>
    rw [search]
    split
    · exact Nat.le_of_succ_le (ih (i + 1))
    · exact Nat.le_refl i

/-- The candidates that are passed over are to be avoided. -/
theorem mem_of_lt_search (stem : String) (avoid : List String) (fuel i : Nat) {j : Nat} (hi : i ≤ j)
    (hj : j < search stem avoid fuel i) : stem ++ toString j ∈ avoid := by
  induction fuel generalizing i with
  | zero =>
    rw [search] at hj
    omega
  | succ fuel ih =>
    rw [search] at hj
    split at hj
    · next hmem =>
      by_cases h : j = i
      · rw [h]
        exact hmem
      · exact ih (i + 1) (by omega) hj
    · omega

/-- A candidate that should have been passed over is the last one looked at. -/
theorem search_eq_of_mem (stem : String) (avoid : List String) (fuel i : Nat)
    (h : stem ++ toString (search stem avoid fuel i) ∈ avoid) :
    search stem avoid fuel i = i + fuel := by
  induction fuel generalizing i with
  | zero => rfl
  | succ fuel ih =>
    rw [search] at h ⊢
    split
    · next hmem =>
      rw [if_pos hmem] at h
      rw [ih (i + 1) h]
      omega
    · next hmem =>
      rw [if_neg hmem] at h
      exact absurd h hmem

/-- A search that goes as far as the first candidate that is not to be avoided ends there. -/
theorem search_eq_of_least {stem : String} {avoid : List String} {k : Nat}
    (hnew : stem ++ toString k ∉ avoid) {fuel i : Nat}
    (hleast : ∀ j, i ≤ j → j < k → stem ++ toString j ∈ avoid) (hi : i ≤ k) (hk : k ≤ i + fuel) :
    search stem avoid fuel i = k := by
  induction fuel generalizing i with
  | zero =>
    rw [search]
    omega
  | succ fuel ih =>
    rw [search]
    by_cases he : i = k
    · rw [he, if_neg hnew]
    · rw [if_pos (hleast i (Nat.le_refl i) (by omega))]
      exact ih (fun j hj hjk => hleast j (by omega) hjk) (by omega) (by omega)

theorem candidate_search_not_mem (stem : String) (avoid : List String) :
    stem ++ toString (search stem avoid avoid.length 1) ∉ avoid := by
  intro h
  have hlast := search_eq_of_mem stem avoid avoid.length 1 h
  have hall : ∀ j, 1 ≤ j → j < avoid.length + 2 → stem ++ toString j ∈ avoid := by
    intro j h₁ h₂
    by_cases hj : j < search stem avoid avoid.length 1
    · exact mem_of_lt_search stem avoid avoid.length 1 h₁ hj
    · have he : j = search stem avoid avoid.length 1 := by omega
      rw [he]
      exact h
  have hcard := le_card_of_candidates hall
  have hle := List.toFinset_card_le avoid
  omega

end Fresh

theorem freshName_not_mem (name : String) (avoid : List String) : freshName name avoid ∉ avoid :=
  Fresh.candidate_search_not_mem (Fresh.stem name) avoid

namespace Token

theorem isIdentifierPart_of_isDigit {c : Char} (h : c.isDigit = true) :
    isIdentifierPart c = true := by
  have hc : '0' ≤ c ∧ c ≤ '9' := by
    simpa [Char.isDigit, Char.le_def] using h
  simp [isIdentifierPart, isIdentifierStart, hc.1, hc.2]

theorem isIdentifier_stem {name : String} (h : isIdentifier name = true) :
    isIdentifier (Fresh.stem name) = true := by
  unfold Fresh.stem
  dsimp only
  split
  · exact h
  · next hne =>
    have hpre : (name.toList.reverse.dropWhile Fresh.isAsciiDigit).reverse <+: name.toList := by
      rw [← List.reverse_suffix, List.reverse_reverse]
      exact List.dropWhile_suffix _
    simp only [isIdentifier, String.toList_ofList]
    exact isWord_of_isPrefix hpre (by simpa using hne) h

theorem isIdentifier_freshName {name : String} (h : isIdentifier name = true)
    (avoid : List String) : isIdentifier (freshName name avoid) = true := by
  unfold freshName
  simp only [isIdentifier, String.toList_append]
  refine isWord_append (isIdentifier_stem h) ?_
  intro d hd
  apply isIdentifierPart_of_isDigit
  have hd' : d ∈ Nat.toDigits 10 (Fresh.search (Fresh.stem name) avoid avoid.length 1) := by
    simpa using hd
  exact Nat.isDigit_of_mem_toDigits (by decide) (by decide) hd'

end Token

/-- A fresh name is the stem of a name with the least positive number that makes it new. One of the
first numbers does, of which there are one more than names to avoid, and any search that goes
through them ends there. A fresh name for an identifier is an identifier. -/
theorem freshName_takes_least_number (name : String) (avoid : List String) :
    ∃ stem k, Fresh.StemOf name stem ∧ 1 ≤ k ∧ k ≤ avoid.toFinset.card + 1 ∧
      freshName name avoid = stem ++ toString k ∧ stem ++ toString k ∉ avoid ∧
      (∀ j, 1 ≤ j → j < k → stem ++ toString j ∈ avoid) ∧
      (∀ fuel, avoid.toFinset.card ≤ fuel → Fresh.search stem avoid fuel 1 = k) ∧
      (Token.isIdentifier name = true → Token.isIdentifier (freshName name avoid) = true) := by
  let stem := Fresh.stem name
  let k := Fresh.search stem avoid avoid.length 1
  have hpos : 1 ≤ k := Fresh.le_search stem avoid avoid.length 1
  have hnew : stem ++ toString k ∉ avoid := Fresh.candidate_search_not_mem stem avoid
  have hleast : ∀ j, 1 ≤ j → j < k → stem ++ toString j ∈ avoid :=
    fun j h₁ hj => Fresh.mem_of_lt_search stem avoid avoid.length 1 h₁ hj
  have hbound : k ≤ avoid.toFinset.card + 1 := Fresh.le_card_of_candidates hleast
  refine ⟨stem, k, Fresh.stemOf_stem name, hpos, hbound, rfl, hnew, hleast, ?_, ?_⟩
  · intro fuel hfuel
    exact Fresh.search_eq_of_least hnew hleast hpos (by omega)
  · exact fun h => Token.isIdentifier_freshName h avoid

/-- The digits behind the prime are dropped, and the number between two that are taken is found. -/
theorem freshName_takes_least_number_after_prime :
    let avoid := ["x'1", "x'12", "x'3", "x'1"]
    Token.isIdentifier "x'12" = true ∧ freshName "x'12" avoid = "x'2" ∧
      Token.isIdentifier (freshName "x'12" avoid) = true ∧
      ∃ stem k, Fresh.StemOf "x'12" stem ∧ k ≤ 4 ∧ freshName "x'12" avoid = stem ++ toString k := by
  intro avoid
  obtain ⟨stem, k, hstem, -, hbound, hname, -, -, -, hidentifier⟩ :=
    freshName_takes_least_number "x'12" avoid
  exact ⟨by decide, by decide, hidentifier (by decide), stem, k, hstem, hbound, hname⟩

/-- A name that is nothing but digits keeps them all. -/
example : freshName "12" ["12", "121"] = "122" := by decide

end NormalOrder
