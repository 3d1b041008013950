import W65C816.Address

/-!
# Signed displacements

A displacement is a signed 32-bit number, and an address takes the bits of it that it has room for:
the low 24 with `Address.shift`, the low 16 with `Address.shiftInBank`. In numbers, both add the
displacement itself, modulo the size of the space or of a bank.

* `Address.toInt_value_shift` and `Address.toInt_offset_shiftInBank` are the two in numbers.
* `Address.shift_shift` and `Address.shiftInBank_shiftInBank`: one displacement after another is
  their sum, also where the sum overflows.
* `Address.shift_eq_shiftInBank_iff` says when the two lead to the same place: when the number of
  banks that the offset would pass is a multiple of the number of banks there are.
* `Address.displacements_exact` puts these together.
-/

namespace W65C816

/-- The bits of a displacement, read as a number without a sign, are the displacement modulo the
    numbers of 32 bits. -/
theorem toNat_toUInt32_eq (d : Int32) : (d.toUInt32.toNat : Int) = d.toInt % 0x100000000 := by
  have hlt := d.toUInt32.toNat_lt
  have hsigned : d.toInt = if 2 * d.toUInt32.toNat < 2 ^ 32 then (d.toUInt32.toNat : Int)
      else (d.toUInt32.toNat : Int) - (2 ^ 32 : Nat) :=
    BitVec.toInt_eq_toNat_cond d.toBitVec
  split at hsigned <;> omega

namespace Address

/-! ## Displacements in numbers -/

/-- In the whole space, a displacement adds to the value and wraps at the top. -/
theorem toInt_value_shift (a : Address) (d : Int32) :
    ((a.shift d).value.toNat : Int) = (a.value.toNat + d.toInt) % 0x1000000 := by
  have hd := toNat_toUInt32_eq d
  rw [shift, toNat_value_onward, spaceSize]
  omega

theorem bank_shiftInBank (a : Address) (d : Int32) : (a.shiftInBank d).bank = a.bank :=
  rfl

/-- In the bank, a displacement adds to the offset and wraps at the end of the bank. -/
theorem toInt_offset_shiftInBank (a : Address) (d : Int32) :
    ((a.shiftInBank d).offset.toNat : Int) = (a.offset.toNat + d.toInt) % 0x10000 := by
  have hd := toNat_toUInt32_eq d
  have hoffset : (a.shiftInBank d).offset.toNat =
      (a.offset.toNat + d.toUInt32.toNat % 0x10000) % 0x10000 := by
    rw [shiftInBank, inBank, UInt16.toNat_add, UInt32.toNat_toUInt16]
  omega

/-! ## One displacement after another -/

/-- Displacements add up as 32-bit words do, also where that sum wraps. -/
theorem shift_shift (a : Address) (d₁ d₂ : Int32) :
    (a.shift d₁).shift d₂ = a.shift (d₁ + d₂) := by
  rw [shift, shift, shift, onward_onward, Int32.toUInt32_add]

theorem shiftInBank_shiftInBank (a : Address) (d₁ d₂ : Int32) :
    (a.shiftInBank d₁).shiftInBank d₂ = a.shiftInBank (d₁ + d₂) := by
  rw [shiftInBank, shiftInBank, shiftInBank, inBank_inBank, Int32.toUInt32_add,
    UInt32.toUInt16_add]

/-! ## The same place -/

variable {a : Address} {d : Int32}

/-- What tells the two apart is the number of banks that the offset would pass, upward or downward.
    A multiple of the number of banks makes no difference. -/
theorem shift_eq_shiftInBank_iff :
    a.shift d = a.shiftInBank d ↔ 256 ∣ ((a.offset.toNat : Int) + d.toInt) / 0x10000 := by
  have hbank := a.bank.toNat_lt
  have hstart := toNat_value a
  have hspace := toInt_value_shift a d
  have hoffset := toInt_offset_shiftInBank a d
  have hvalue := toNat_value (a.shiftInBank d)
  rw [bank_shiftInBank] at hvalue
  constructor
  · intro hsame
    rw [hsame] at hspace
    omega
  · intro hbanks
    apply value_inj
    apply UInt32.toNat_inj.mp
    omega

/-- As long as the offset stays in the bank, both lead to the same place. -/
theorem shift_eq_shiftInBank (hlow : 0 ≤ (a.offset.toNat : Int) + d.toInt)
    (hhigh : (a.offset.toNat : Int) + d.toInt < 0x10000) : a.shift d = a.shiftInBank d := by
  apply shift_eq_shiftInBank_iff.mpr
  rw [Int.ediv_eq_zero_of_lt hlow hhigh]
  exact Int.dvd_zero 256

/-- A displacement that is one bank shorter than the space passes fewer banks than there are. -/
theorem shift_ne_shiftInBank (houtside : ¬(0 ≤ (a.offset.toNat : Int) + d.toInt ∧
      (a.offset.toNat : Int) + d.toInt < 0x10000))
    (hshort : d.toInt.natAbs ≤ 0x1000000 - 0x10000) : a.shift d ≠ a.shiftInBank d := by
  intro hsame
  have hlt := a.offset.toNat_lt
  have hbanks := shift_eq_shiftInBank_iff.mp hsame
  have hsome : ((a.offset.toNat : Int) + d.toInt) / 0x10000 ≠ 0 := by omega
  have hfew : -256 < ((a.offset.toNat : Int) + d.toInt) / 0x10000 ∧
      ((a.offset.toNat : Int) + d.toInt) / 0x10000 < 256 := by omega
  omega

/-- What displacements do to an address, for all of them. Dividing by a positive number rounds
    downward.

    * In the whole space, the value moves by the displacement, modulo the size of the space.
    * In the bank, the bank stays, and the offset moves modulo the size of a bank.
    * One displacement after another is their sum, which wraps at 32 bits.
    * The two lead to the same place exactly when the offset would pass a multiple of 256 banks. They
      do as long as the offset stays in its bank. They do not when it leaves the bank by a
      displacement that is at least one bank shorter than the space. -/
theorem displacements_exact (a : Address) (d d₁ d₂ : Int32) :
    let moved := (a.offset.toNat : Int) + d.toInt
    ((a.shift d).value.toNat : Int) = (a.value.toNat + d.toInt) % 0x1000000 ∧
      ((a.shiftInBank d).bank = a.bank ∧
        ((a.shiftInBank d).offset.toNat : Int) = moved % 0x10000) ∧
      ((a.shift d₁).shift d₂ = a.shift (d₁ + d₂) ∧
        (a.shiftInBank d₁).shiftInBank d₂ = a.shiftInBank (d₁ + d₂)) ∧
      (a.shift d = a.shiftInBank d ↔ 256 ∣ moved / 0x10000) ∧
      (0 ≤ moved ∧ moved < 0x10000 → a.shift d = a.shiftInBank d) ∧
      (¬(0 ≤ moved ∧ moved < 0x10000) → d.toInt.natAbs ≤ 0x1000000 - 0x10000 →
        a.shift d ≠ a.shiftInBank d) := by
  intro moved
  refine ⟨toInt_value_shift a d, ⟨bank_shiftInBank a d, toInt_offset_shiftInBank a d⟩,
    ⟨shift_shift a d₁ d₂, shiftInBank_shiftInBank a d₁ d₂⟩, shift_eq_shiftInBank_iff, ?_, ?_⟩
  · rintro ⟨hlow, hhigh⟩
    exact shift_eq_shiftInBank hlow hhigh
  -- Outside the bank, a short displacement passes at least one bank and fewer than all of them.
  · intro houtside hshort
    exact shift_ne_shiftInBank houtside hshort

/-- From the second byte of a bank, one byte back is in the bank. Two bytes back are in the bank
    below or at the end of the same one. -/
theorem displaced_at_start_of_bank :
    let a : Address := ⟨5, 1⟩
    let moved := fun d : Int32 => (a.offset.toNat : Int) + d.toInt
    ((0 ≤ moved (-1) ∧ moved (-1) < 0x10000) ∧ a.shift (-1) = a.shiftInBank (-1)) ∧
      ¬(0 ≤ moved (-2) ∧ moved (-2) < 0x10000) ∧
        (-2 : Int32).toInt.natAbs ≤ 0x1000000 - 0x10000 ∧ a.shift (-2) ≠ a.shiftInBank (-2) := by
  intro a moved
  have hinside : 0 ≤ moved (-1) ∧ moved (-1) < 0x10000 := by decide
  have houtside : ¬(0 ≤ moved (-2) ∧ moved (-2) < 0x10000) := by decide
  have hshort : (-2 : Int32).toInt.natAbs ≤ 0x1000000 - 0x10000 := by decide
  obtain ⟨-, -, -, -, hsame, -⟩ := displacements_exact a (-1) 0 0
  obtain ⟨-, -, -, -, -, hapart⟩ := displacements_exact a (-2) 0 0
  exact ⟨⟨hinside, hsame hinside⟩, houtside, hshort, hapart houtside hshort⟩

/-- One byte more than the bound, and the way goes round the whole space to the same place. -/
example :
    (⟨5, 0xFFFF⟩ : Address).shift 0xFF0001 = (⟨5, 0xFFFF⟩ : Address).shiftInBank 0xFF0001 := by
  decide

end Address

end W65C816
