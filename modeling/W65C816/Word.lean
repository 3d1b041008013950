/-!
# Bytes and words

Operands are one byte or two bytes wide. Words are little-endian: the low byte has the lower
address.

* `Width` is the size of an operand; `Width.truncate` is the part of a word that an operand of
  that size holds, and `Width.signBit` its top bit.
* `lowByte`, `highByte` and `joinBytes` take a word apart and put it together again, which
  `joinBytes_lowByte_highByte`, `lowByte_joinBytes` and `highByte_joinBytes` say.
* `littleEndian` reads a number of any length, and `longBytes` writes one of four bytes.
-/

namespace W65C816

/-- Size of an operand: one byte or two. -/
inductive Width where
  | byte
  | word
  deriving DecidableEq, Repr, Inhabited

namespace Width

/-- Number of bytes an operand of this width takes. -/
def bytes : Width → Nat
  | byte => 1
  | word => 2

/-- Number of values an operand of this width has. -/
def modulus : Width → Nat
  | byte => 0x100
  | word => 0x10000

/-- The part of `v` that an operand of this width holds. -/
@[inline] def truncate : Width → UInt16 → UInt16
  | byte, v => v % 0x100
  | word, v => v

/-- The top bit of an operand. -/
def signBit : Width → UInt16
  | byte => 0x80
  | word => 0x8000

/-- True when the top bit of an operand is set. -/
def isNegative (w : Width) (v : UInt16) : Bool :=
  v &&& w.signBit != 0

/-- True when an operand is zero, whatever lies above its top bit. -/
def isZero (w : Width) (v : UInt16) : Bool :=
  w.truncate v == 0

@[simp] theorem truncate_word (v : UInt16) : truncate word v = v := rfl

/-- Truncation is the remainder by what the width can hold. -/
theorem toNat_truncate (w : Width) (v : UInt16) :
    (w.truncate v).toNat = v.toNat % w.modulus := by
  cases w with
  | byte => simp [truncate, modulus]
  | word => exact (Nat.mod_eq_of_lt v.toNat_lt).symm

/-- A value that an operand of this width can hold. -/
def Fits (w : Width) (v : UInt16) : Prop :=
  w = .byte → v ≤ 0xFF

theorem fits_word (v : UInt16) : word.Fits v := by
  intro h
  cases h

/-- A byte fits both widths. -/
theorem fits_toUInt16 (w : Width) (v : UInt8) : w.Fits v.toUInt16 := by
  intro _
  have hlt := v.toNat_lt
  rw [UInt16.le_iff_toNat_le, UInt8.toNat_toUInt16]
  exact Nat.le_of_lt_succ hlt

theorem fits_truncate (w : Width) (v : UInt16) : w.Fits (w.truncate v) := by
  intro h
  have hlt := Nat.mod_lt v.toNat (show 0x100 > 0 by decide)
  rw [UInt16.le_iff_toNat_le, toNat_truncate, h]
  exact Nat.le_of_lt_succ hlt

/-- An operand that fits is all of the word. -/
theorem truncate_of_fits {w : Width} {v : UInt16} (h : w.Fits v) : w.truncate v = v := by
  cases w with
  | word => rfl
  | byte =>
      have hle := UInt16.le_iff_toNat_le.mp (h rfl)
      apply UInt16.toNat_inj.mp
      rw [toNat_truncate]
      exact Nat.mod_eq_of_lt (Nat.lt_succ_of_le hle)

end Width

/-! ## Taking words apart -/

/-- The byte a word has at its lower address. -/
@[inline] def lowByte (v : UInt16) : UInt8 :=
  v.toUInt8

/-- The byte a word has at its higher address. -/
def highByte (v : UInt16) : UInt8 :=
  (v / 0x100).toUInt8

/-- The word with the given two bytes. -/
def joinBytes (low high : UInt8) : UInt16 :=
  low.toUInt16 + 0x100 * high.toUInt16

theorem toNat_lowByte (v : UInt16) : (lowByte v).toNat = v.toNat % 0x100 := by
  simp [lowByte]

theorem toNat_highByte (v : UInt16) : (highByte v).toNat = v.toNat / 0x100 := by
  have h := v.toNat_lt
  simp only [highByte, UInt16.toNat_toUInt8, UInt16.toNat_div, UInt16.reduceToNat]
  omega

/-- The low byte counts once, the high one 256 times. -/
theorem toNat_joinBytes (low high : UInt8) :
    (joinBytes low high).toNat = low.toNat + 0x100 * high.toNat := by
  have hl := low.toNat_lt
  have hh := high.toNat_lt
  simp only [joinBytes, UInt16.toNat_add, UInt16.toNat_mul, UInt8.toNat_toUInt16,
    UInt16.reduceToNat]
  omega

/-- A word is what its two bytes make up. -/
@[simp] theorem joinBytes_lowByte_highByte (v : UInt16) :
    joinBytes (lowByte v) (highByte v) = v := by
  apply UInt16.toNat_inj.mp
  rw [toNat_joinBytes, toNat_lowByte, toNat_highByte]
  omega

@[simp] theorem lowByte_joinBytes (low high : UInt8) : lowByte (joinBytes low high) = low := by
  apply UInt8.toNat_inj.mp
  have h := low.toNat_lt
  rw [toNat_lowByte, toNat_joinBytes]
  omega

@[simp] theorem highByte_joinBytes (low high : UInt8) : highByte (joinBytes low high) = high := by
  apply UInt8.toNat_inj.mp
  have h := low.toNat_lt
  rw [toNat_highByte, toNat_joinBytes]
  omega

/-- The low byte of a word is there at any width. -/
theorem lowByte_truncate (w : Width) (v : UInt16) : lowByte (w.truncate v) = lowByte v := by
  apply UInt8.toNat_inj.mp
  rw [toNat_lowByte, toNat_lowByte, Width.toNat_truncate]
  cases w with
  | byte => exact Nat.mod_mod v.toNat 0x100
  | word => exact Nat.mod_mod_of_dvd v.toNat (by decide)

/-- Words that agree at a width have the same low byte. -/
theorem lowByte_eq_of_truncate {w : Width} {v v' : UInt16} (h : w.truncate v' = w.truncate v) :
    lowByte v' = lowByte v := by
  rw [← lowByte_truncate w v', h, lowByte_truncate]

/-- The low byte of a word is the word at the width of a byte. -/
theorem toUInt16_lowByte (v : UInt16) : (lowByte v).toUInt16 = Width.byte.truncate v := by
  apply UInt16.toNat_inj.mp
  rw [UInt8.toNat_toUInt16, toNat_lowByte, Width.toNat_truncate]
  rfl

/-! ## Numbers of more bytes -/

/-- The number whose bytes are given, the lowest first. -/
def littleEndian : List UInt8 → Nat
  | [] => 0
  | b :: rest => b.toNat + 0x100 * littleEndian rest

/-- The two bytes of a word, the lowest first. -/
def wordBytes (v : UInt16) : List UInt8 :=
  [lowByte v, highByte v]

/-- The four bytes of a long word, the lowest first. -/
def longBytes (v : UInt32) : List UInt8 :=
  [v.toUInt8, (v >>> 8).toUInt8, (v >>> 16).toUInt8, (v >>> 24).toUInt8]

end W65C816
