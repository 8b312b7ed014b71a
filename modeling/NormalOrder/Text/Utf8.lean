/-!
# UTF-8

Text as bytes and back. A malformed sequence is reported with the bytes that are to blame: a byte
that starts no character, or a start together with the continuation bytes that were still right.

Bytes come in blocks, and what the end of a block cuts off is decoded together with the next one, or
on its own after the last one. Positions are counted from the start of the bytes decoded together.
-/

namespace NormalOrder.Text.Utf8

inductive Reason
  | invalidStart
  | invalidContinuation
  | unexpectedEnd
deriving DecidableEq, Repr

/-- `byte` is the first byte to blame, and `first` and `last` are the positions of the bytes to
blame. -/
structure Fault where
  reason : Reason
  byte : Nat
  first : Nat
  last : Nat
deriving DecidableEq, Repr

def Reason.message : Reason → String
  | invalidStart => "invalid start byte"
  | invalidContinuation => "invalid continuation byte"
  | unexpectedEnd => "unexpected end of data"

/-- A byte as two hexadecimal digits. -/
def hexByte (b : Nat) : String :=
  String.ofList [Nat.digitChar (b / 16), Nat.digitChar (b % 16)]

def Fault.message (f : Fault) : String :=
  let bytes :=
    if f.first = f.last then "byte 0x" ++ hexByte f.byte ++ " in position " ++ toString f.first
    else "bytes in position " ++ toString f.first ++ "-" ++ toString f.last
  "'utf-8' codec can't decode " ++ bytes ++ ": " ++ f.reason.message

/-- What the first byte of a character says: how many bytes follow, between which bounds the first
of them lies, and its own bits of the character. -/
structure Lead where
  more : Nat
  low : Nat := 0x80
  high : Nat := 0xBF
  bits : Nat

def lead? (b : Nat) : Option Lead :=
  if b < 0x80 then some { more := 0, bits := b }
  else if b < 0xC2 then none
  else if b < 0xE0 then some { more := 1, bits := b - 0xC0 }
  else if b = 0xE0 then some { more := 2, low := 0xA0, bits := 0 }
  else if b = 0xED then some { more := 2, high := 0x9F, bits := 0xD }
  else if b < 0xF0 then some { more := 2, bits := b - 0xE0 }
  else if b = 0xF0 then some { more := 3, low := 0x90, bits := 0 }
  else if b < 0xF4 then some { more := 3, bits := b - 0xF0 }
  else if b = 0xF4 then some { more := 3, high := 0x8F, bits := 4 }
  else none

inductive Tail
  | complete (code : Nat) (rest : List UInt8)
  /-- This many continuation bytes are right, and the next one is not. -/
  | wrong (right : Nat)
  /-- The bytes end after this many continuation bytes. -/
  | cut (right : Nat)

/-- Reads `more` continuation bytes, the first of them between `low` and `high`. -/
def readTail (low high bits right : Nat) : Nat → List UInt8 → Tail
  | 0, rest => .complete bits rest
  | _ + 1, [] => .cut right
  | more + 1, c :: rest =>
    if low ≤ c.toNat ∧ c.toNat ≤ high then
      readTail 0x80 0xBF (64 * bits + c.toNat % 64) (right + 1) more rest
    else .wrong right

theorem length_le_of_readTail {low high bits right more code : Nat} {bytes rest : List UInt8}
    (h : readTail low high bits right more bytes = .complete code rest) :
    rest.length ≤ bytes.length := by
  induction more generalizing low high bits right bytes with
  | zero => cases h; exact Nat.le_refl _
  | succ more ih =>
    cases bytes with
    | nil => cases h
    | cons c bytes =>
      simp only [readTail] at h
      split at h
      · exact Nat.le_succ_of_le (ih h)
      · cases h

/-- The most bytes in a block. -/
def blockSize : Nat := 8192

/-- How far the bytes have been decoded. -/
structure Place where
  /-- The number of bytes in front. -/
  pos : Nat := 0
  /-- Where the bytes start that are decoded together. -/
  origin : Nat := 0

namespace Place

/-- Where the block ends if `length` bytes are left. -/
def blockEnd (p : Place) (length : Nat) : Nat :=
  min ((p.pos / blockSize + 1) * blockSize) (p.pos + length)

/-- The place after a character of `length` bytes. -/
def next (p : Place) (length : Nat) : Place :=
  let pos := p.pos + length
  let stop := (p.pos / blockSize + 1) * blockSize
  ⟨pos, if pos < stop then p.origin else if pos = stop then pos else p.pos⟩

/-- Whether the wrong byte of a sequence at `p`, behind `right` good continuation bytes, is met in
the same block. The first half of a surrogate at the end of a block is not found out there. -/
def isMet (p : Place) (right : Nat) (bytes : List UInt8) : Bool :=
  let stop := p.blockEnd bytes.length
  let surrogate := match bytes with
    | b :: c :: _ => b.toNat = 0xED && 0xA0 ≤ c.toNat && c.toNat ≤ 0xBF
    | _ => false
  p.pos + 1 + right < stop && !(surrogate && p.pos + 2 = stop)

end Place

/-- Decodes the bytes from a place on. -/
def decodeFrom (p : Place) (bytes : List UInt8) : Except Fault (List Char) :=
  match bytes with
  | [] => .ok []
  | b :: rest =>
    match lead? b.toNat with
    | none => .error ⟨.invalidStart, b.toNat, p.pos - p.origin, p.pos - p.origin⟩
    | some l =>
      match h : readTail l.low l.high l.bits 0 l.more rest with
      | .wrong right =>
        let first := if p.isMet right (b :: rest) then p.pos - p.origin else 0
        .error ⟨.invalidContinuation, b.toNat, first, first + right⟩
      | .cut right => .error ⟨.unexpectedEnd, b.toNat, 0, right⟩
      | .complete code rest =>
        have := length_le_of_readTail h
        (decodeFrom (p.next (1 + l.more)) rest).map (Char.ofNat code :: ·)
termination_by bytes.length
decreasing_by simp; omega

def decode (bytes : List UInt8) : Except Fault String :=
  (decodeFrom {} bytes).map String.ofList

/-- The continuation byte for the lowest six bits of `n`. -/
def continuation (n : Nat) : UInt8 :=
  UInt8.ofNat (0x80 + n % 64)

/-- The bytes of a character: as few as its code allows. -/
def encodeChar (c : Char) : List UInt8 :=
  let n := c.toNat
  if n < 0x80 then [UInt8.ofNat n]
  else if n < 0x800 then [UInt8.ofNat (0xC0 + n / 64), continuation n]
  else if n < 0x10000 then
    [UInt8.ofNat (0xE0 + n / 4096), continuation (n / 64), continuation n]
  else
    [UInt8.ofNat (0xF0 + n / 262144), continuation (n / 4096), continuation (n / 64),
      continuation n]

def encode (text : String) : List UInt8 :=
  text.toList.flatMap encodeChar

end NormalOrder.Text.Utf8
