import NormalOrder.Text.Utf8

/-!
# Decoding what was encoded

The bytes of a text decode to it. For one character this holds in front of any other bytes, because
its first byte says how many belong to it.
-/

namespace NormalOrder.Text.Utf8

theorem toNat_byte {n : Nat} (h : n < 256) : (UInt8.ofNat n).toNat = n :=
  UInt8.toNat_ofNat_of_lt' h

theorem toNat_continuation (n : Nat) : (continuation n).toNat = 0x80 + n % 64 :=
  toNat_byte (by omega)

/-- A continuation byte adds its six bits. -/
theorem readTail_continuation {low high bits right more n : Nat} {rest : List UInt8}
    (hlow : low ≤ 0x80 + n % 64) (hhigh : 0x80 + n % 64 ≤ high) :
    readTail low high bits right (more + 1) (continuation n :: rest) =
      readTail 0x80 0xBF (64 * bits + n % 64) (right + 1) more rest := by
  rw [readTail, toNat_continuation, if_pos ⟨hlow, hhigh⟩]
  congr 2
  omega

/-- Reading goes on after a character that was read. -/
theorem decodeFrom_cons {p : Place} {code : Nat} {b : UInt8} {bytes rest : List UInt8} {l : Lead}
    (hl : lead? b.toNat = some l)
    (hr : readTail l.low l.high l.bits 0 l.more bytes = .complete code rest) :
    decodeFrom p (b :: bytes) =
      (decodeFrom (p.next (1 + l.more)) rest).map (Char.ofNat code :: ·) := by
  rw [decodeFrom]
  simp only [hl]
  split <;> simp_all

theorem isScalar (c : Char) : c.toNat < 0xD800 ∨ 0xDFFF < c.toNat ∧ c.toNat < 0x110000 :=
  c.valid

theorem lead_eq {more low high m n : Nat} (h : m = n) :
    some (Lead.mk more low high m) = some ⟨more, low, high, n⟩ := by
  rw [h]

/-- The first byte of three has the highest bits, and its bounds admit the second byte. -/
theorem lead?_three {n : Nat} (hlow : 0x800 ≤ n) (hhigh : n < 0x10000)
    (hn : n < 0xD800 ∨ 0xDFFF < n) :
    ∃ low high, lead? (0xE0 + n / 4096) = some ⟨2, low, high, n / 4096⟩ ∧
      low ≤ 0x80 + n / 64 % 64 ∧ 0x80 + n / 64 % 64 ≤ high := by
  unfold lead?
  rw [if_neg (by omega), if_neg (by omega), if_neg (by omega)]
  split
  · exact ⟨0xA0, 0xBF, lead_eq (by omega), by omega, by omega⟩
  · split
    · exact ⟨0x80, 0x9F, lead_eq (by omega), by omega, by omega⟩
    · rw [if_pos (by omega)]
      exact ⟨0x80, 0xBF, lead_eq (by omega), by omega, by omega⟩

/-- The first byte of four has the highest bits, and its bounds admit the second byte. -/
theorem lead?_four {n : Nat} (hlow : 0x10000 ≤ n) (hhigh : n < 0x110000) :
    ∃ low high, lead? (0xF0 + n / 262144) = some ⟨3, low, high, n / 262144⟩ ∧
      low ≤ 0x80 + n / 4096 % 64 ∧ 0x80 + n / 4096 % 64 ≤ high := by
  unfold lead?
  rw [if_neg (by omega), if_neg (by omega), if_neg (by omega), if_neg (by omega), if_neg (by omega),
    if_neg (by omega)]
  split
  · exact ⟨0x90, 0xBF, lead_eq (by omega), by omega, by omega⟩
  · split
    · exact ⟨0x80, 0xBF, lead_eq (by omega), by omega, by omega⟩
    · rw [if_pos (by omega)]
      exact ⟨0x80, 0x8F, lead_eq (by omega), by omega, by omega⟩

theorem decodeFrom_encodeChar_append (p : Place) (c : Char) (rest : List UInt8) :
    decodeFrom p (encodeChar c ++ rest) =
      (decodeFrom (p.next (encodeChar c).length) rest).map (c :: ·) := by
  have hc := isScalar c
  have hn : Char.ofNat c.toNat = c := Char.ofNat_toNat c
  unfold encodeChar
  generalize c.toNat = n at hc hn
  simp only
  split
  · have hl : lead? (UInt8.ofNat n).toNat = some ⟨0, 0x80, 0xBF, n⟩ := by
      rw [toNat_byte (by omega), lead?, if_pos (by omega)]
    rw [List.singleton_append, decodeFrom_cons hl (readTail.eq_1 ..), hn]
    rfl
  · split
    · have hl : lead? (UInt8.ofNat (0xC0 + n / 64)).toNat = some ⟨1, 0x80, 0xBF, n / 64⟩ := by
        rw [toNat_byte (by omega), lead?, if_neg (by omega), if_neg (by omega), if_pos (by omega)]
        exact lead_eq (by omega)
      have hr : readTail 0x80 0xBF (n / 64) 0 1 (continuation n :: rest) = .complete n rest := by
        rw [readTail_continuation (by omega) (by omega), readTail]
        congr
        omega
      rw [List.cons_append, List.singleton_append, decodeFrom_cons hl hr, hn]
      rfl
    · split
      · obtain ⟨low, high, hl, hlow, hhigh⟩ := lead?_three (n := n) (by omega) (by omega) (by omega)
        have hr : readTail low high (n / 4096) 0 2
            (continuation (n / 64) :: continuation n :: rest) = .complete n rest := by
          rw [readTail_continuation hlow hhigh, readTail_continuation (by omega) (by omega),
            readTail]
          congr
          omega
        rw [← toNat_byte (n := 0xE0 + n / 4096) (by omega)] at hl
        rw [List.cons_append, List.cons_append, List.singleton_append, decodeFrom_cons hl hr, hn]
        rfl
      · obtain ⟨low, high, hl, hlow, hhigh⟩ := lead?_four (n := n) (by omega) (by omega)
        have hr : readTail low high (n / 262144) 0 3
            (continuation (n / 4096) :: continuation (n / 64) :: continuation n :: rest) =
            .complete n rest := by
          rw [readTail_continuation hlow hhigh, readTail_continuation (by omega) (by omega),
            readTail_continuation (by omega) (by omega), readTail]
          congr
          omega
        rw [← toNat_byte (n := 0xF0 + n / 262144) (by omega)] at hl
        rw [List.cons_append, List.cons_append, List.cons_append, List.singleton_append,
          decodeFrom_cons hl hr, hn]
        rfl

theorem decodeFrom_flatMap_encodeChar (p : Place) (cs : List Char) :
    decodeFrom p (cs.flatMap encodeChar) = .ok cs := by
  induction cs generalizing p with
  | nil => rw [List.flatMap_nil, decodeFrom]
  | cons c cs ih =>
    rw [List.flatMap_cons, decodeFrom_encodeChar_append, ih]
    rfl

/-- Every text can be read back. -/
theorem decode_encode (text : String) : decode (encode text) = .ok text := by
  unfold decode encode
  rw [decodeFrom_flatMap_encodeChar]
  exact congrArg Except.ok String.ofList_toList

end NormalOrder.Text.Utf8
