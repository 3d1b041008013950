import Mathlib.Data.Nat.Bitwise
import W65C816.Proofs.Machine.Reading

/-!
# Binary addition and subtraction

Operands are numbers in two ways, with and without a sign. Addition and subtraction are right in
both as far as their results fit, and the flags say how far that is.

* `Width.signed` is an operand as a number with a sign, and `Width.HoldsSigned` says which numbers
  these are.
* `Status.Describes` is what Z and N say about a result.
* `Arithmetic.overflows_iff` is the overflow flag: it compares two carries, and means that the
  signed sum is none of these numbers.
* `Arithmetic.compare_eq` makes a comparison a subtraction.
* `binary_arithmetic_exact` puts all this together, and says it of the comparing instructions.
-/

namespace W65C816

/-! ## Operands as numbers -/

namespace Width

variable {w : Width} {v : UInt16}

theorem modulus_le (w : Width) : w.modulus ≤ 0x10000 := by
  cases w with
  | byte => decide
  | word => decide

theorem modulus_pos (w : Width) : 0 < w.modulus := by
  cases w with
  | byte => decide
  | word => decide

/-- The sign bit weighs half of what an operand can hold. -/
theorem two_mul_half (w : Width) : 2 * (w.modulus / 2) = w.modulus := by
  cases w with
  | byte => rfl
  | word => rfl

theorem lt_modulus_of_fits (h : w.Fits v) : v.toNat < w.modulus := by
  rw [← truncate_of_fits h, toNat_truncate]
  exact Nat.mod_lt _ w.modulus_pos

/-- The number that an operand stands for when its top bit is a sign. -/
def signed (w : Width) (v : UInt16) : Int :=
  if v.toNat < w.modulus / 2 then v.toNat else (v.toNat : Int) - w.modulus

/-- The numbers that operands of this width stand for when their top bits are signs. -/
def HoldsSigned (w : Width) (n : Int) : Prop :=
  -((w.modulus / 2 : Nat) : Int) ≤ n ∧ n < (w.modulus / 2 : Nat)

instance (w : Width) (n : Int) : Decidable (w.HoldsSigned n) :=
  inferInstanceAs (Decidable (_ ∧ _))

/-- What lies below the sign bit of an operand, and what the sign bit makes of it. -/
theorem sign_cases (h : v.toNat < w.modulus) :
    (v.toNat < w.modulus / 2 ∧ v.toNat % (w.modulus / 2) = v.toNat ∧
        w.signed v = (v.toNat : Int)) ∨
      (w.modulus / 2 ≤ v.toNat ∧ v.toNat % (w.modulus / 2) = v.toNat - w.modulus / 2 ∧
        w.signed v = (v.toNat : Int) - w.modulus) := by
  have hhalf := w.two_mul_half
  by_cases hlow : v.toNat < w.modulus / 2
  · exact .inl ⟨hlow, Nat.mod_eq_of_lt hlow, if_pos hlow⟩
  · have hle := Nat.le_of_not_lt hlow
    refine .inr ⟨hle, ?_, if_neg hlow⟩
    rw [Nat.mod_eq_sub_mod hle]
    exact Nat.mod_eq_of_lt (by omega)

theorem toNat_truncate_of_lt (h : v.toNat < w.modulus) : (w.truncate v).toNat = v.toNat := by
  rw [toNat_truncate, Nat.mod_eq_of_lt h]

theorem isZero_iff (h : v.toNat < w.modulus) : w.isZero v = true ↔ v.toNat = 0 := by
  rw [isZero, beq_iff_eq, ← UInt16.toNat_inj, toNat_truncate_of_lt h]
  exact Iff.rfl

/-- The top bit of a number is set when the number reaches its weight. -/
theorem and_two_pow_ne_zero_iff {n k : Nat} (h : n < 2 * 2 ^ k) : n &&& 2 ^ k ≠ 0 ↔ 2 ^ k ≤ n := by
  have hpos : 0 < 2 ^ k := Nat.two_pow_pos k
  rw [Nat.and_two_pow, Nat.testBit_eq_decide_div_mod_eq]
  by_cases hle : 2 ^ k ≤ n
  · have hdiv : n / 2 ^ k = 1 := Nat.div_eq_of_lt_le (by omega) (by omega)
    simp [hdiv, hle]
  · have hdiv : n / 2 ^ k = 0 := Nat.div_eq_of_lt (Nat.lt_of_not_le hle)
    simp [hdiv, hle]

/-- N is set when the number reaches the weight of the sign bit. -/
theorem isNegative_iff (h : v.toNat < w.modulus) :
    w.isNegative v = true ↔ w.modulus / 2 ≤ v.toNat := by
  rw [isNegative, bne_iff_ne, ne_eq, ← UInt16.toNat_inj, UInt16.toNat_and]
  cases w with
  | byte => exact and_two_pow_ne_zero_iff (k := 7) h
  | word => exact and_two_pow_ne_zero_iff (k := 15) h

end Width

/-- Z and N tell whether a result is zero and whether its top bit is set. -/
def Status.Describes (s : Status) (w : Width) (v : UInt16) : Prop :=
  (s.zero = true ↔ v.toNat = 0) ∧ (s.negative = true ↔ w.modulus / 2 ≤ v.toNat)

theorem Status.withResult_describes (s : Status) {w : Width} {v : UInt16}
    (h : v.toNat < w.modulus) : (s.withResult w v).Describes w v :=
  ⟨Width.isZero_iff h, Width.isNegative_iff h⟩

namespace Arithmetic

variable {w : Width} {a b : UInt16}

/-! ## Sums -/

/-- An operand and its complement make up the largest number of the width. -/
theorem toNat_complement (h : b.toNat < w.modulus) :
    (complement w b).toNat = w.modulus - 1 - b.toNat := by
  have hlt := b.toNat_lt
  rw [complement, Width.toNat_truncate, UInt16.toNat_not, UInt16.size]
  cases w with
  | byte =>
      simp only [Width.modulus] at h ⊢
      omega
  | word =>
      simp only [Width.modulus]
      omega

theorem complement_lt (h : b.toNat < w.modulus) : (complement w b).toNat < w.modulus := by
  rw [toNat_complement h]
  omega

/-- The complement stands for the negative number that is one further. -/
theorem signed_complement (h : b.toNat < w.modulus) :
    w.signed (complement w b) = -w.signed b - 1 := by
  have hhalf := w.two_mul_half
  have hcomplement := toNat_complement h
  have hlt := complement_lt h
  obtain ⟨hb, -, hsigned⟩ | ⟨hb, -, hsigned⟩ := Width.sign_cases h
  all_goals
    obtain ⟨hc, -, hsigned'⟩ | ⟨hc, -, hsigned'⟩ := Width.sign_cases hlt
    · omega
    · omega

/-- The sum that is calculated with operands and carry does not wrap yet. -/
theorem binarySum_eq (ha : a.toNat < w.modulus) (hb : b.toNat < w.modulus) (carry : Bool) :
    binarySum w a b carry = a.toNat + b.toNat + carry.toNat := by
  rw [binarySum, Width.toNat_truncate_of_lt ha, Width.toNat_truncate_of_lt hb]

theorem toNat_addBinary (ha : a.toNat < w.modulus) (hb : b.toNat < w.modulus) (carry : Bool) :
    (addBinary w a b carry).1.toNat = (a.toNat + b.toNat + carry.toNat) % w.modulus := by
  have hlt := Nat.mod_lt (a.toNat + b.toNat + carry.toNat) w.modulus_pos
  rw [addBinary, binarySum_eq ha hb, UInt16.toNat_ofNat']
  exact Nat.mod_eq_of_lt (Nat.lt_of_lt_of_le hlt w.modulus_le)

/-- There is a carry when the sum does not fit. -/
theorem carry_addBinary (ha : a.toNat < w.modulus) (hb : b.toNat < w.modulus) (carry : Bool) :
    (addBinary w a b carry).2 = true ↔ w.modulus ≤ a.toNat + b.toNat + carry.toNat := by
  rw [addBinary, binarySum_eq ha hb]
  exact decide_eq_true_iff

/-- The carries into and out of the sign bit differ when the signed sum does not fit. -/
theorem overflows_iff (ha : a.toNat < w.modulus) (hb : b.toNat < w.modulus) (carry : Bool) :
    overflows w a b carry = true ↔
      ¬ w.HoldsSigned (w.signed a + w.signed b + carry.toNat) := by
  have hhalf := w.two_mul_half
  have hcarry := carry.toNat_le
  rw [overflows, bne_iff_ne, ne_eq, decide_eq_decide, sumBelowSign, binarySum_eq ha hb,
    Width.toNat_truncate_of_lt ha, Width.toNat_truncate_of_lt hb, Width.HoldsSigned]
  -- Once the signs are known, the carries and the range are linear in the operands.
  obtain ⟨hla, hra, hsa⟩ | ⟨hla, hra, hsa⟩ := Width.sign_cases ha
  all_goals
    rw [hra, hsa]
    obtain ⟨hlb, hrb, hsb⟩ | ⟨hlb, hrb, hsb⟩ := Width.sign_cases hb
    · rw [hrb, hsb]
      omega
    · rw [hrb, hsb]
      omega

/-! ## Additions, subtractions and comparisons -/

variable (s : Status)

/-- The overflow flag does not ask whether the operation is decimal. -/
theorem overflow_addWithCarry (ha : a.toNat < w.modulus) (hb : b.toNat < w.modulus) :
    (addWithCarry s w a b).2.overflow = true ↔
      ¬ w.HoldsSigned (w.signed a + w.signed b + s.carry.toNat) :=
  overflows_iff ha hb s.carry

/-- A subtraction overflows when the signed difference does not fit. It adds the complement, which
    stands for one less than the negative number. -/
theorem overflow_subtractWithBorrow (ha : a.toNat < w.modulus) (hb : b.toNat < w.modulus) :
    (subtractWithBorrow s w a b).2.overflow = true ↔
      ¬ w.HoldsSigned (w.signed a - w.signed b - (1 - s.carry.toNat)) := by
  have hlt : (complement w b).toNat < w.modulus := complement_lt hb
  have hsum : w.signed a + w.signed (complement w b) + s.carry.toNat =
      w.signed a - w.signed b - (1 - s.carry.toNat) := by
    rw [signed_complement hb]
    omega
  rw [← hsum]
  exact overflows_iff ha hlt s.carry

variable {s}

/-- Z and N describe a sum, decimal or not. -/
theorem addWithCarry_describes (h : (addWithCarry s w a b).1.toNat < w.modulus) :
    (addWithCarry s w a b).2.Describes w (addWithCarry s w a b).1 :=
  Status.withResult_describes _ h

theorem subtractWithBorrow_describes (h : (subtractWithBorrow s w a b).1.toNat < w.modulus) :
    (subtractWithBorrow s w a b).2.Describes w (subtractWithBorrow s w a b).1 :=
  Status.withResult_describes _ h

theorem addWithCarry_binary (hd : s.decimal = false) :
    (addWithCarry s w a b).1 = (addBinary w a b s.carry).1 ∧
      (addWithCarry s w a b).2.carry = (addBinary w a b s.carry).2 := by
  rw [addWithCarry, hd]
  exact ⟨rfl, rfl⟩

/-- A binary subtraction is the addition of the complement. -/
theorem subtractWithBorrow_binary (hd : s.decimal = false) :
    subtractWithBorrow s w a b = addWithCarry s w a (complement w b) := by
  rw [subtractWithBorrow, addWithCarry, hd]
  rfl

/-- The result of an addition, its carry and what the other flags say of it. -/
theorem addWithCarry_exact (hd : s.decimal = false) (ha : a.toNat < w.modulus)
    (hb : b.toNat < w.modulus) :
    let sum := addWithCarry s w a b
    let n := a.toNat + b.toNat + s.carry.toNat
    sum.1.toNat = n % w.modulus ∧ (sum.2.carry = true ↔ w.modulus ≤ n) ∧
      sum.2.Describes w sum.1 := by
  intro sum n
  obtain ⟨hresult, hcarry⟩ := addWithCarry_binary (w := w) (a := a) (b := b) hd
  have hvalue : sum.1.toNat = n % w.modulus :=
    (congrArg UInt16.toNat hresult).trans (toNat_addBinary ha hb s.carry)
  have hlt : sum.1.toNat < w.modulus := by
    rw [hvalue]
    exact Nat.mod_lt n w.modulus_pos
  refine ⟨hvalue, ?_, addWithCarry_describes hlt⟩
  rw [hcarry]
  exact carry_addBinary ha hb s.carry

/-- The difference as the sum that it is calculated as. -/
theorem toNat_subtractWithBorrow (hd : s.decimal = false) (ha : a.toNat < w.modulus)
    (hb : b.toNat < w.modulus) :
    (subtractWithBorrow s w a b).1.toNat =
      (a.toNat + (w.modulus - 1 - b.toNat) + s.carry.toNat) % w.modulus := by
  have hlt : (complement w b).toNat < w.modulus := complement_lt hb
  rw [subtractWithBorrow_binary hd, (addWithCarry_exact hd ha hlt).1, toNat_complement hb]

/-- The result of a subtraction, where the carry is the absence of a borrow. -/
theorem subtractWithBorrow_exact (hd : s.decimal = false) (ha : a.toNat < w.modulus)
    (hb : b.toNat < w.modulus) :
    let difference := subtractWithBorrow s w a b
    let c := s.carry.toNat
    (difference.1.toNat : Int) = (a.toNat - b.toNat - (1 - c) : Int) % w.modulus ∧
      (difference.2.carry = true ↔ b.toNat + (1 - c) ≤ a.toNat) ∧
      difference.2.Describes w difference.1 := by
  intro difference c
  have hcarry : c ≤ 1 := s.carry.toNat_le
  have hlt : (complement w b).toNat < w.modulus := complement_lt hb
  have hvalue := toNat_subtractWithBorrow hd ha hb
  obtain ⟨-, hborrow, hflags⟩ := addWithCarry_exact hd ha hlt
  rw [toNat_complement hb] at hborrow
  rw [← subtractWithBorrow_binary hd] at hborrow hflags
  refine ⟨?_, ?_, hflags⟩
  · have hsum : ((a.toNat + (w.modulus - 1 - b.toNat) + c : Nat) : Int) =
        (a.toNat - b.toNat - (1 - c) : Int) + w.modulus := by
      omega
    rw [hvalue, Int.natCast_emod, hsum, Int.add_emod_right]
  · rw [hborrow]
    omega

/-- A comparison sets C, Z and N as a binary subtraction without a borrow would, and no other
    flag. -/
theorem compare_eq (s : Status) (register : UInt16) (hb : b.toNat < w.modulus) :
    let binary := { s with carry := true, decimal := false }
    let flags := (subtractWithBorrow binary w (w.truncate register) b).2
    compare s w register b =
      { s with carry := flags.carry, zero := flags.zero, negative := flags.negative } := by
  intro binary flags
  have ha : (w.truncate register).toNat < w.modulus := by
    rw [Width.toNat_truncate]
    exact Nat.mod_lt _ w.modulus_pos
  obtain ⟨-, hborrow, -⟩ := subtractWithBorrow_exact (s := binary) rfl ha hb
  -- The carry is set when nothing had to be borrowed, which is what a comparison asks directly.
  have hcarry : decide (b ≤ w.truncate register) = flags.carry := by
    rw [Bool.eq_iff_iff, decide_eq_true_iff, hborrow, UInt16.le_iff_toNat_le]
    exact Iff.rfl
  -- The operands are subtracted as words and cut to the width, or by adding the complement in the
  -- width.
  have hdifference : w.truncate (w.truncate register - b) =
      (subtractWithBorrow binary w (w.truncate register) b).1 := by
    apply UInt16.toNat_inj.mp
    have hone : binary.carry.toNat = 1 := rfl
    rw [toNat_subtractWithBorrow rfl ha hb, hone, Width.toNat_truncate, UInt16.toNat_sub]
    cases w with
    | byte =>
        simp only [Width.modulus] at ha hb ⊢
        omega
    | word =>
        simp only [Width.modulus] at ha hb ⊢
        omega
  rw [compare, hcarry, hdifference]
  rfl

end Arithmetic

/-! ## Comparing instructions -/

/-- The register that an operation compares with its operand, and what decides the width. -/
def Operation.compared : Operation → Option (OperandSize × (Registers → UInt16))
  | .cmp => some (.accumulator, Registers.a)
  | .cpx => some (.index, Registers.x)
  | .cpy => some (.index, Registers.y)
  | _ => none

/-- Comparing takes the part of the register that is as wide as the operand. -/
theorem Instruction.effect_compared {i : Instruction} {size : OperandSize}
    {register : Registers → UInt16} (h : i.operation.compared = some (size, register)) :
    ∃ seen : Registers → UInt16, i.effect = .read size (Effect.compare seen) ∧
      ∀ r, (size.width r.status).truncate (seen r) =
        (size.width r.status).truncate (register r) := by
  obtain ⟨operation, mode, baseCycles⟩ := i
  cases operation with
  | cmp =>
      obtain ⟨rfl, rfl⟩ := Prod.mk.inj (Option.some.inj h)
      refine ⟨Registers.accumulator, rfl, fun r => ?_⟩
      exact Width.truncate_of_fits (Width.fits_truncate _ _)
  | cpx =>
      obtain ⟨rfl, rfl⟩ := Prod.mk.inj (Option.some.inj h)
      exact ⟨Registers.x, rfl, fun r => rfl⟩
  | cpy =>
      obtain ⟨rfl, rfl⟩ := Prod.mk.inj (Option.some.inj h)
      exact ⟨Registers.y, rfl, fun r => rfl⟩
  | _ => exact nomatch h

/-- Binary addition, subtraction and comparison, for operands of both widths.

    * Unless they are decimal, the sum of two operands and the carry, and the difference less one
      unless the carry is set, are what integers give, modulo the number of values. The carry tells
      of a sum that reaches this number, and of a difference that needs no borrow. Z and N describe
      the result.
    * Decimal or not, the overflow flag tells that the sum or the difference of the numbers with
      signs fits no operand.
    * A comparing instruction sets C, Z and N as a binary subtraction of its operand without a
      borrow would, and no other flag. -/
theorem binary_arithmetic_exact :
    (∀ (s : Status) (w : Width) (a b : UInt16), a.toNat < w.modulus → b.toNat < w.modulus →
      let c := s.carry.toNat
      let sum := Arithmetic.addWithCarry s w a b
      let difference := Arithmetic.subtractWithBorrow s w a b
      (s.decimal = false →
        (sum.1.toNat = (a.toNat + b.toNat + c) % w.modulus ∧
          (sum.2.carry = true ↔ w.modulus ≤ a.toNat + b.toNat + c) ∧ sum.2.Describes w sum.1) ∧
        ((difference.1.toNat : Int) = (a.toNat - b.toNat - (1 - c) : Int) % w.modulus ∧
          (difference.2.carry = true ↔ b.toNat + (1 - c) ≤ a.toNat) ∧
          difference.2.Describes w difference.1)) ∧
      (sum.2.overflow = true ↔ ¬ w.HoldsSigned (w.signed a + w.signed b + c)) ∧
      (difference.2.overflow = true ↔ ¬ w.HoldsSigned (w.signed a - w.signed b - (1 - c)))) ∧
    (∀ {B : Type} [Bus B] (m : Machine B) (size : OperandSize) (register : Registers → UInt16),
      m.core.decide m.irqLine = .instruction →
      m.fetched.operation.compared = some (size, register) →
      let s := m.core.status
      let w := size.width s
      let binary := { s with carry := true, decimal := false }
      let flags := (Arithmetic.subtractWithBorrow binary w
        (w.truncate (register m.core.toRegisters)) (m.operand w).1).2
      m.step.machine.core.status =
        { s with carry := flags.carry, zero := flags.zero, negative := flags.negative }) := by
  constructor
  · intro s w a b ha hb c sum difference
    refine ⟨fun hd => ⟨?_, ?_⟩, ?_, ?_⟩
    · exact Arithmetic.addWithCarry_exact hd ha hb
    · exact Arithmetic.subtractWithBorrow_exact hd ha hb
    · exact Arithmetic.overflow_addWithCarry s ha hb
    · exact Arithmetic.overflow_subtractWithBorrow s ha hb
  -- The operand of the instruction fits its width, so the facts about numbers apply to it.
  · intro B _ m size register h hcompared s w binary flags
    obtain ⟨seen, heffect, hseen⟩ := Instruction.effect_compared hcompared
    have hoperand := Width.lt_modulus_of_fits (m.fits_operand w)
    have hstatus : m.step.machine.core.status =
        Arithmetic.compare s w (seen m.core.toRegisters) (m.operand w).1 :=
      congrArg Registers.status (Machine.step_reading h heffect).1
    rw [hstatus, Arithmetic.compare_eq s _ hoperand, hseen]

/-- A decimal sum that wraps to zero and overflows, since 80 and 80 are too much for a signed byte,
    and a comparison of X with one more than it holds. -/
theorem halves_overflow :
    let s := { Status.powerOn with decimal := true }
    let m := (Machine.start (Memory.blank.load 0 [0xE0, 0x01]) .standard).machine
    (Arithmetic.addWithCarry s .byte 0x50 0x50).1 = 0 ∧
      (Arithmetic.addWithCarry s .byte 0x50 0x50).2.overflow = true ∧
      m.core.decide m.irqLine = .instruction ∧ m.fetched = ⟨.cpx, .immediate, 2⟩ ∧
      m.step.machine.core.status =
        { m.core.status with carry := false, zero := false, negative := true } := by
  intro s m
  have hstep : m.core.decide m.irqLine = .instruction := rfl
  have hfetched : m.fetched = ⟨.cpx, .immediate, 2⟩ := by decide +kernel
  have hoverflow := ((binary_arithmetic_exact.1 s .byte 0x50 0x50 (by decide) (by decide)).2.1).mpr
    (by decide)
  have hstatus := binary_arithmetic_exact.2 m .index Registers.x hstep (by rw [hfetched]; rfl)
  refine ⟨by decide, hoverflow, hstep, hfetched, hstatus.trans ?_⟩
  decide +kernel

end W65C816
