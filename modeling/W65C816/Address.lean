import W65C816.Hex

/-!
# 24-bit addresses

The address bus is 24 bits wide. An address is a bank byte and a 16-bit offset inside that bank,
and its `value` is the integer the two make.

Two kinds of displacement exist:

* `Address.inBank` keeps the bank and lets the offset roll over, as the program counter, branches
  and the direct page do;
* `Address.onward` adds to the 24-bit value, so that an overflow of the offset carries into the
  bank, as indexed data accesses do. It wraps only at the top of the address space.

`Address.shiftInBank` and `Address.shift` are the same two for signed displacements. Order is the
order of values.
-/

namespace W65C816

/-- One of the 16 MiB that the processor can address. -/
structure Address where
  bank : UInt8
  offset : UInt16
  deriving DecidableEq, Repr, Inhabited

namespace Address

/-- Number of addresses. -/
def spaceSize : Nat := 0x1000000

/-- The 24-bit value of an address. -/
@[inline] def value (a : Address) : UInt32 :=
  a.bank.toUInt32 * 0x10000 + a.offset.toUInt32

/-- The address with the given value. Bits above the 24th are dropped. -/
def ofValue (n : UInt32) : Address :=
  ⟨(n / 0x10000).toUInt8, n.toUInt16⟩

/-- The address `n` bytes further on in the same bank, where the offset wraps. -/
def inBank (a : Address) (n : UInt16) : Address :=
  ⟨a.bank, a.offset + n⟩

/-- The address `n` bytes further on in the whole space, carrying into the bank. -/
def onward (a : Address) (n : UInt32) : Address :=
  ofValue (a.value + n)

/-- Moves an address by a signed displacement inside its bank. -/
def shiftInBank (a : Address) (delta : Int32) : Address :=
  a.inBank delta.toUInt32.toUInt16

/-- Moves an address by a signed displacement in the whole space. -/
def shift (a : Address) (delta : Int32) : Address :=
  a.onward delta.toUInt32

/-- A displacement that does not say how to carry stays in the bank. -/
instance : HAdd Address Int32 Address := ⟨shiftInBank⟩

instance : LT Address := ⟨fun a b => a.value < b.value⟩

instance : LE Address := ⟨fun a b => a.value ≤ b.value⟩

instance (a b : Address) : Decidable (a < b) := inferInstanceAs (Decidable (a.value < b.value))

instance (a b : Address) : Decidable (a ≤ b) := inferInstanceAs (Decidable (a.value ≤ b.value))

instance : Ord Address := ⟨fun a b => compare a.value b.value⟩

/-- True when `a` lies between the two bounds, which both belong to the range. -/
def inRange (a first last : Address) : Bool :=
  first ≤ a ∧ a ≤ last

/-- True when two offsets lie on different pages of 256 bytes. -/
def onDifferentPages (p q : UInt16) : Bool :=
  p / 0x100 != q / 0x100

/-- Bank and offset in hexadecimal, as in `7E:1234`. -/
def text (a : Address) : String :=
  s!"{Hex.byte a.bank}:{Hex.word a.offset}"

/-! ## The value of an address -/

/-- The value of an address counts banks of 64 KiB. -/
theorem toNat_value (a : Address) : a.value.toNat = a.bank.toNat * 0x10000 + a.offset.toNat := by
  have hb := a.bank.toNat_lt
  have ho := a.offset.toNat_lt
  simp only [value, UInt32.toNat_add, UInt32.toNat_mul, UInt8.toNat_toUInt32,
    UInt16.toNat_toUInt32, UInt32.reduceToNat]
  omega

/-- Every address is in the address space. -/
theorem toNat_value_lt (a : Address) : a.value.toNat < spaceSize := by
  have hb := a.bank.toNat_lt
  have ho := a.offset.toNat_lt
  rw [toNat_value, spaceSize]
  omega

theorem toNat_bank_ofValue (n : UInt32) :
    (ofValue n).bank.toNat = n.toNat / 0x10000 % 0x100 := by
  simp [ofValue]

theorem toNat_offset_ofValue (n : UInt32) : (ofValue n).offset.toNat = n.toNat % 0x10000 := by
  simp [ofValue]

/-- A number beyond the address space wraps. -/
theorem toNat_value_ofValue (n : UInt32) : (ofValue n).value.toNat = n.toNat % spaceSize := by
  rw [toNat_value, toNat_bank_ofValue, toNat_offset_ofValue, spaceSize]
  omega

/-- An address is known by its value. -/
theorem value_inj {a b : Address} (h : a.value = b.value) : a = b := by
  have hn : a.value.toNat = b.value.toNat := by rw [h]
  have ha := a.offset.toNat_lt
  have hb := b.offset.toNat_lt
  rw [toNat_value, toNat_value] at hn
  have hbank : a.bank = b.bank := UInt8.toNat_inj.mp (by omega)
  have hoffset : a.offset = b.offset := UInt16.toNat_inj.mp (by omega)
  cases a with
  | mk bank offset =>
      cases b with
      | mk bank' offset' =>
          cases hbank
          cases hoffset
          rfl

/-- An address is known by its value. -/
@[simp] theorem ofValue_value (a : Address) : ofValue a.value = a := by
  apply value_inj
  apply UInt32.toNat_inj.mp
  rw [toNat_value_ofValue]
  exact Nat.mod_eq_of_lt a.toNat_value_lt

/-- Going on wraps at the top of the address space. -/
theorem toNat_value_onward (a : Address) (n : UInt32) :
    (a.onward n).value.toNat = (a.value.toNat + n.toNat) % spaceSize := by
  rw [onward, toNat_value_ofValue, UInt32.toNat_add, spaceSize]
  omega

theorem toNat_value_onward_ofNat (a : Address) (n : Nat) :
    (a.onward (UInt32.ofNat n)).value.toNat = (a.value.toNat + n) % spaceSize := by
  rw [toNat_value_onward, UInt32.toNat_ofNat', spaceSize]
  omega

@[simp] theorem onward_zero (a : Address) : a.onward 0 = a := by
  apply value_inj
  apply UInt32.toNat_inj.mp
  rw [toNat_value_onward, UInt32.toNat_zero, Nat.add_zero]
  exact Nat.mod_eq_of_lt a.toNat_value_lt

/-- Going on twice is going on by the sum. -/
theorem onward_onward (a : Address) (m n : UInt32) :
    (a.onward m).onward n = a.onward (m + n) := by
  apply value_inj
  apply UInt32.toNat_inj.mp
  rw [toNat_value_onward, toNat_value_onward, toNat_value_onward, UInt32.toNat_add, spaceSize]
  omega

/-- Two steps can be taken as one. -/
theorem onward_onward_ofNat (a : Address) (m n : Nat) :
    (a.onward (UInt32.ofNat m)).onward (UInt32.ofNat n) = a.onward (UInt32.ofNat (m + n)) := by
  rw [onward_onward, ← UInt32.ofNat_add]

@[simp] theorem onward_ofNat_zero (a : Address) : a.onward (UInt32.ofNat 0) = a :=
  a.onward_zero

/-- As long as the space goes on, so does the value. -/
theorem toNat_value_onward_of_lt {a : Address} {n : Nat} (h : a.value.toNat + n < spaceSize) :
    (a.onward (UInt32.ofNat n)).value.toNat = a.value.toNat + n := by
  rw [toNat_value_onward_ofNat, Nat.mod_eq_of_lt h]

theorem toNat_value_onward_one {a : Address} (h : a.value.toNat + 1 < spaceSize) :
    (a.onward 1).value.toNat = a.value.toNat + 1 :=
  toNat_value_onward_of_lt (n := 1) h

/-- Steps within a bank add up too, where the sum wraps in 16 bits. -/
theorem inBank_inBank (a : Address) (m n : UInt16) : (a.inBank m).inBank n = a.inBank (m + n) := by
  rw [inBank, inBank, inBank, UInt16.add_assoc]

/-- The two bytes of a word are at different places, also where they wrap. -/
theorem inBank_one_ne (a : Address) : a.inBank 1 ≠ a := by
  intro heq
  have hoffset : (a.inBank 1).offset.toNat = a.offset.toNat := by rw [heq]
  have hlt := a.offset.toNat_lt
  simp only [inBank, UInt16.toNat_add, UInt16.reduceToNat] at hoffset
  omega

theorem onward_one_ne (a : Address) : a.onward 1 ≠ a := by
  intro heq
  have hvalue : (a.onward 1).value.toNat = a.value.toNat := by rw [heq]
  have hlt := a.toNat_value_lt
  rw [toNat_value_onward, UInt32.toNat_one, spaceSize] at hvalue
  rw [spaceSize] at hlt
  omega

end Address

end W65C816
