import NormalOrder.Text.Utf8.RoundTrip

/-!
# What can be decoded

Bytes decode only if they are those of a text, because the first byte of a character bounds the
second one so that no code has two forms and no surrogate has one. So the bytes that are no text are
exactly those that no text is encoded as.
-/

namespace NormalOrder.Text.Utf8

theorem toNat_ofNat {n : Nat} (h : n < 0xD800 ∨ 0xDFFF < n ∧ n < 0x110000) :
    (Char.ofNat n).toNat = n := by
  rw [Char.ofNat, dif_pos h]
  rfl

/-- Where a continuation byte is read, there is one within the bounds, and reading goes on behind
it. -/
theorem of_readTail_succ {low high bits right more code : Nat} {bytes rest : List UInt8}
    (hlow : 0x80 ≤ low) (hhigh : high ≤ 0xBF)
    (h : readTail low high bits right (more + 1) bytes = .complete code rest) :
    ∃ n bytes', bytes = continuation n :: bytes' ∧ n < 64 ∧ low ≤ 0x80 + n ∧ 0x80 + n ≤ high ∧
      readTail 0x80 0xBF (64 * bits + n) (right + 1) more bytes' = .complete code rest := by
  cases bytes with
  | nil => cases h
  | cons c bytes' =>
    rw [readTail] at h
    split at h
    · next hc =>
      obtain ⟨hclow, hchigh⟩ := hc
      have hmod : c.toNat % 64 = c.toNat - 0x80 := by omega
      have hbyte : c = continuation (c.toNat - 0x80) := by
        rw [← UInt8.toNat_inj, toNat_continuation]
        omega
      rw [hmod] at h
      exact ⟨c.toNat - 0x80, bytes', congrArg (· :: bytes') hbyte, by omega, by omega, by omega, h⟩
    · cases h

/-- What is said by a byte that starts a character. The bounds of the second byte keep out the codes
that have a shorter form, the surrogates and the codes that are too high. -/
theorem lead?_cases {b : Nat} {l : Lead} (h : lead? b = some l) :
    (l.more = 0 ∧ b < 0x80 ∧ l.bits = b) ∨
    (l.more = 1 ∧ 0xC2 ≤ b ∧ b < 0xE0 ∧ b = 0xC0 + l.bits ∧ l.low = 0x80 ∧ l.high = 0xBF) ∨
    (l.more = 2 ∧ b = 0xE0 + l.bits ∧ l.bits < 16 ∧ 0x80 ≤ l.low ∧ l.high ≤ 0xBF ∧
      (l.bits = 0 → 0xA0 ≤ l.low) ∧ (l.bits = 13 → l.high ≤ 0x9F)) ∨
    (l.more = 3 ∧ b = 0xF0 + l.bits ∧ l.bits ≤ 4 ∧ 0x80 ≤ l.low ∧ l.high ≤ 0xBF ∧
      (l.bits = 0 → 0x90 ≤ l.low) ∧ (l.bits = 4 → l.high ≤ 0x8F)) := by
  unfold lead? at h
  repeat' split at h
  all_goals cases h
  all_goals dsimp only
  all_goals omega

section Forms

variable {n : Nat}

theorem encodeChar_one (h : n < 0x80) : encodeChar (Char.ofNat n) = [UInt8.ofNat n] := by
  rw [encodeChar, toNat_ofNat (by omega)]
  exact if_pos h

theorem encodeChar_two (hlow : 0x80 ≤ n) (hhigh : n < 0x800) :
    encodeChar (Char.ofNat n) = [UInt8.ofNat (0xC0 + n / 64), continuation n] := by
  simp only [encodeChar, toNat_ofNat (n := n) (by omega)]
  rw [if_neg (by omega), if_pos hhigh]

theorem encodeChar_three (hlow : 0x800 ≤ n) (hhigh : n < 0x10000) (hn : n < 0xD800 ∨ 0xDFFF < n) :
    encodeChar (Char.ofNat n) =
      [UInt8.ofNat (0xE0 + n / 4096), continuation (n / 64), continuation n] := by
  simp only [encodeChar, toNat_ofNat (n := n) (by omega)]
  rw [if_neg (by omega), if_neg (by omega), if_pos hhigh]

theorem encodeChar_four (hlow : 0x10000 ≤ n) (hhigh : n < 0x110000) :
    encodeChar (Char.ofNat n) =
      [UInt8.ofNat (0xF0 + n / 262144), continuation (n / 4096), continuation (n / 64),
        continuation n] := by
  simp only [encodeChar, toNat_ofNat (n := n) (by omega)]
  rw [if_neg (by omega), if_neg (by omega), if_neg (by omega)]

end Forms

theorem continuation_congr {m n : Nat} (h : m % 64 = n % 64) : continuation m = continuation n := by
  rw [continuation, continuation, h]

/-- The bytes read for a character are those it is encoded as. -/
theorem eq_encodeChar_append {b : UInt8} {l : Lead} {code : Nat} {bytes rest : List UInt8}
    (hl : lead? b.toNat = some l)
    (hr : readTail l.low l.high l.bits 0 l.more bytes = .complete code rest) :
    b :: bytes = encodeChar (Char.ofNat code) ++ rest := by
  have hbyte {m : Nat} (h : b.toNat = m) : UInt8.ofNat m = b := by rw [← h, UInt8.ofNat_toNat]
  rcases lead?_cases hl with ⟨hmore, hb, hbits⟩ | ⟨hmore, hlow, hhigh, hb, hllow, hlhigh⟩ |
    ⟨hmore, hb, hbits, hlow, hhigh, hfirst, hsurrogate⟩ |
    ⟨hmore, hb, hbits, hlow, hhigh, hfirst, hlast⟩
  · rw [hmore] at hr
    cases hr
    rw [encodeChar_one (by omega), hbyte hbits.symm]
    rfl
  · rw [hmore] at hr
    obtain ⟨n, bytes₁, rfl, hn, -, -, hr⟩ := of_readTail_succ (by omega) (by omega) hr
    cases hr
    rw [encodeChar_two (by omega) (by omega), hbyte (by omega),
      continuation_congr (m := 64 * l.bits + n) (n := n) (by omega)]
    rfl
  · rw [hmore] at hr
    obtain ⟨m, bytes₁, rfl, hm, hmlow, hmhigh, hr⟩ := of_readTail_succ hlow hhigh hr
    obtain ⟨n, bytes₂, rfl, hn, -, -, hr⟩ := of_readTail_succ (by omega) (by omega) hr
    cases hr
    rw [encodeChar_three (by omega) (by omega) (by omega), hbyte (by omega),
      continuation_congr (m := 64 * (64 * l.bits + m) + n) (n := n) (by omega),
      continuation_congr (m := (64 * (64 * l.bits + m) + n) / 64) (n := m) (by omega)]
    rfl
  · rw [hmore] at hr
    obtain ⟨k, bytes₁, rfl, hk, hklow, hkhigh, hr⟩ := of_readTail_succ hlow hhigh hr
    obtain ⟨m, bytes₂, rfl, hm, -, -, hr⟩ := of_readTail_succ (by omega) (by omega) hr
    obtain ⟨n, bytes₃, rfl, hn, -, -, hr⟩ := of_readTail_succ (by omega) (by omega) hr
    cases hr
    rw [encodeChar_four (by omega) (by omega), hbyte (by omega),
      continuation_congr (m := 64 * (64 * (64 * l.bits + k) + m) + n) (n := n) (by omega),
      continuation_congr (m := (64 * (64 * (64 * l.bits + k) + m) + n) / 64) (n := m) (by omega),
      continuation_congr (m := (64 * (64 * (64 * l.bits + k) + m) + n) / 4096) (n := k) (by omega)]
    rfl

theorem eq_flatMap_of_decodeFrom {p : Place} {bytes : List UInt8} {cs : List Char}
    (h : decodeFrom p bytes = .ok cs) : bytes = cs.flatMap encodeChar := by
  fun_induction decodeFrom p bytes generalizing cs with
  | case1 =>
    cases h
    rfl
  | case2 => cases h
  | case3 => cases h
  | case4 => cases h
  | case5 p b bytes l hl code rest hr _ ih =>
    cases hrest : decodeFrom (p.next (1 + l.more)) rest with
    | error fault =>
      rw [hrest] at h
      cases h
    | ok cs' =>
      rw [hrest] at h
      cases h
      rw [eq_encodeChar_append hl hr, ih hrest, List.flatMap_cons]

/-- The bytes that decode are those of a text, which is the one that they decode to. -/
theorem decode_eq_ok_iff {bytes : List UInt8} {text : String} :
    decode bytes = .ok text ↔ bytes = encode text := by
  constructor
  · intro h
    cases hchars : decodeFrom {} bytes with
    | error fault =>
      rw [decode, hchars] at h
      cases h
    | ok cs =>
      rw [decode, hchars] at h
      cases h
      rw [encode, String.toList_ofList]
      exact eq_flatMap_of_decodeFrom hchars
  · rintro rfl
    exact decode_encode text

end NormalOrder.Text.Utf8
