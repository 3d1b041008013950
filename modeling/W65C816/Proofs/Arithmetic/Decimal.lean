import Mathlib.Data.Nat.Digits.Lemmas
import W65C816.Proofs.Arithmetic.Binary

/-!
# Decimal addition and subtraction

A packed operand has the decimal digits of a number as its nibbles. On packed operands the rules for
nibbles are addition and subtraction of these numbers.

* `Decimal.value` is the number and `Decimal.pack` the way back; `Decimal.Packed` says when there is
  a number at all.
* `Decimal.Adds` is addition with a carry to the next limb, whatever the limbs are, and
  `Decimal.Subtracts` is the same read from the sum. Both chain (`Decimal.Chains`): what holds of
  two limbs holds of what they make up.
* `Decimal.onOperand_obeys` takes a law that chains from digits to operands, once for both
  operations.
* `decimal_arithmetic_exact` is what follows for the results and the flags.
-/

namespace W65C816

/-- Number of values that a packed operand has. -/
def Width.decimalModulus : Width → Nat
  | byte => 100
  | word => 10000

namespace Decimal

/-! ## Packed numbers -/

/-- All nibbles are decimal digits. -/
def Packed (v : Nat) : Prop :=
  ∀ digit ∈ Nat.digits 16 v, digit < 10

instance (v : Nat) : Decidable (Packed v) :=
  inferInstanceAs (Decidable (∀ digit ∈ Nat.digits 16 v, digit < 10))

/-- The number whose decimal digits are the nibbles of `v`. -/
def value (v : Nat) : Nat :=
  Nat.ofDigits 10 (Nat.digits 16 v)

/-- The number whose nibbles are the decimal digits of `n`. -/
def pack (n : Nat) : Nat :=
  Nat.ofDigits 16 (Nat.digits 10 n)

/-- A packed operand is known by its value. -/
theorem pack_value {v : Nat} (h : Packed v) : pack (value v) = v := by
  have hdigits : Nat.digits 10 (value v) = Nat.digits 16 v := by
    refine Nat.digits_ofDigits 10 (by decide) _ h ?_
    intro hne
    exact Nat.getLast_digit_ne_zero 16 (Nat.digits_ne_nil_iff_ne_zero.mp hne)
  rw [pack, hdigits, Nat.ofDigits_digits]

/-- A number is its last digit and ten times the rest, as an operand is its last nibble and sixteen
    times the rest. -/
theorem value_step (v : Nat) : value v = v % 16 + 10 * value (v / 16) := by
  by_cases h : v = 0
  · subst h
    rfl
  · rw [value, Nat.digits_def' (by decide) (Nat.pos_of_ne_zero h), Nat.ofDigits_cons]
    rfl

theorem packed_step (v : Nat) : Packed v ↔ v % 16 < 10 ∧ Packed (v / 16) := by
  by_cases h : v = 0
  · subst h
    simp [Packed]
  · rw [Packed, Nat.digits_def' (by decide) (Nat.pos_of_ne_zero h), List.forall_mem_cons]
    rfl

theorem value_digit {v : Nat} (h : v < 16) : value v = v := by
  have hvalue := value_step v
  rw [Nat.div_eq_of_lt h, Nat.mod_eq_of_lt h] at hvalue
  exact hvalue

theorem packed_digit {v : Nat} (h : v < 16) : Packed v ↔ v < 10 := by
  have hpacked := packed_step v
  rw [Nat.div_eq_of_lt h, Nat.mod_eq_of_lt h] at hpacked
  exact hpacked.trans (and_iff_left (by simp [Packed]))

theorem value_byte {v : Nat} (h : v < 0x100) : value v = v % 16 + 10 * (v / 16) := by
  rw [value_step, value_digit (by omega)]

theorem packed_byte {v : Nat} (h : v < 0x100) : Packed v ↔ v % 16 < 10 ∧ v / 16 < 10 := by
  rw [packed_step, packed_digit (by omega)]

/-- The low byte of a word has its two lowest digits. -/
theorem value_word (v : Nat) : value v = value (v % 0x100) + 100 * value (v / 0x100) := by
  have hhigh : v / 16 / 16 = v / 0x100 := Nat.div_div_eq_div_mul v 16 16
  rw [value_step v, value_step (v / 16), value_byte (Nat.mod_lt v (by decide)), hhigh]
  omega

theorem packed_word (v : Nat) : Packed v ↔ Packed (v % 0x100) ∧ Packed (v / 0x100) := by
  have hlow : v % 0x100 % 16 = v % 16 ∧ v % 0x100 / 16 = v / 16 % 16 := by omega
  have hhigh : v / 16 / 16 = v / 0x100 := Nat.div_div_eq_div_mul v 16 16
  rw [packed_step v, packed_step (v / 16), packed_byte (Nat.mod_lt v (by decide)), hlow.1, hlow.2,
    hhigh, and_assoc]

/-- A packed operand has fewer values than its width has numbers: a hundred or ten thousand. -/
theorem value_lt {w : Width} {v : Nat} (hv : v < w.modulus) (h : Packed v) :
    value v < w.decimalModulus := by
  have hbyte : ∀ {v : Nat}, v < 0x100 → Packed v → value v < 100 := by
    intro v hv h
    obtain ⟨hlow, hhigh⟩ := (packed_byte hv).mp h
    rw [value_byte hv]
    omega
  -- A word is two bytes, each of which has two digits.
  cases w with
  | byte => exact hbyte hv h
  | word =>
      obtain ⟨hlow, hhigh⟩ := (packed_word v).mp h
      have hlow' := hbyte (Nat.mod_lt v (by decide)) hlow
      have hhigh' := hbyte (Nat.div_lt_of_lt_mul hv) hhigh
      rw [value_word]
      show _ < 10000
      omega

/-! ## Laws that go from limb to limb -/

/-- A relation between two operands, what is carried to them, the result and what is carried on,
    where the operands have so many values. -/
abbrev Law :=
  Nat → Nat → Nat → Bool → Nat → Bool → Prop

/-- The sum and what is carried on. -/
def Adds : Law := fun m a b carry sum carry' =>
  a + b + carry.toNat = sum + m * carry'.toNat

/-- The difference and what is borrowed. With the subtrahend it makes up the minuend. -/
def Subtracts : Law := fun m a b borrow difference borrow' =>
  Adds m difference b borrow a borrow'

/-- What holds of a limb and of the next one holds of both together. -/
def Chains (law : Law) : Prop :=
  ∀ {m n a a' b b' r r' : Nat} {c c₁ c₂ : Bool}, law m a b c r c₁ → law n a' b' c₁ r' c₂ →
    law (m * n) (a + m * a') (b + m * b') c (r + m * r') c₂

/-- What the lower limb carries on is carried to the upper one, so only the upper carry is left
    over. -/
theorem adds_chains : Chains Adds := by
  intro m n a a' b b' r r' c c₁ c₂ hlow hhigh
  simp only [Adds] at hlow hhigh ⊢
  calc a + m * a' + (b + m * b') + c.toNat
      = a + b + c.toNat + m * (a' + b') := by ring
    _ = r + m * (a' + b' + c₁.toNat) := by rw [hlow]; ring
    _ = r + m * r' + m * n * c₂.toNat := by rw [hhigh]; ring

/-- Borrows chain as carries do, since a difference with its subtrahend is a sum. -/
theorem subtracts_chains : Chains Subtracts :=
  fun hlow hhigh => adds_chains hlow hhigh

/-- On digits, a rule gives a digit and obeys a law. -/
def Obeys (rule : UInt8 → UInt8 → Bool → UInt8 × Bool) (law : Law) : Prop :=
  ∀ {a b : UInt8} (c : Bool), a.toNat < 10 → b.toNat < 10 →
    (rule a b c).1.toNat < 10 ∧ law 10 a.toNat b.toNat c (rule a b c).1.toNat (rule a b c).2

theorem toNat_unit (c : Bool) : (unit c).toNat = c.toNat := by
  cases c with
  | false => rfl
  | true => rfl

/-- Adding six to a sum above nine leaves the last digit in the nibble and a carry behind it. -/
theorem addDigit_obeys : Obeys addDigit Adds := by
  intro a b c ha hb
  have hc := c.toNat_le
  have hsum : (a + b + unit c).toNat = a.toNat + b.toNat + c.toNat := by
    rw [UInt8.toNat_add, UInt8.toNat_add, toNat_unit]
    omega
  by_cases h : a + b + unit c > 9
  · -- Six is what makes the nibble carry.
    have hten : 10 ≤ a.toNat + b.toNat + c.toNat := by
      rw [← hsum]
      exact UInt8.lt_iff_toNat_lt.mp h
    have hcorrected : (a + b + unit c + 6).toNat = a.toNat + b.toNat + c.toNat + 6 := by
      rw [UInt8.toNat_add, hsum]
      simp only [UInt8.reduceToNat]
      omega
    have hcarry : a + b + unit c + 6 > 0xF := by
      rw [gt_iff_lt, UInt8.lt_iff_toNat_lt, hcorrected]
      simp only [UInt8.reduceToNat]
      omega
    simp only [addDigit, if_pos h, decide_eq_true hcarry, Adds, UInt8.toNat_mod, hcorrected,
      UInt8.reduceToNat, Bool.toNat_true]
    omega
  · have hnine : a.toNat + b.toNat + c.toNat ≤ 9 := by
      rw [← hsum]
      exact UInt8.le_iff_toNat_le.mp (UInt8.not_lt.mp h)
    have hcarry : ¬ a + b + unit c > 0xF := by
      rw [gt_iff_lt, UInt8.lt_iff_toNat_lt, hsum]
      simp only [UInt8.reduceToNat]
      omega
    simp only [addDigit, if_neg h, decide_eq_false hcarry, Adds, UInt8.toNat_mod, hsum,
      UInt8.reduceToNat, Bool.toNat_false]
    omega

/-- Ten is added to a difference that has to borrow, so it is a digit either way. -/
theorem subtractDigit_obeys : Obeys subtractDigit Subtracts := by
  intro a b c ha hb
  have hc := c.toNat_le
  have hunit := toNat_unit c
  by_cases h : a.toNat < b.toNat + (unit c).toNat
  · have hcorrected : (a - b - unit c + 10).toNat % 16 = a.toNat + 10 - b.toNat - c.toNat := by
      rw [UInt8.toNat_add, UInt8.toNat_sub, UInt8.toNat_sub, hunit]
      simp only [UInt8.reduceToNat]
      omega
    simp only [subtractDigit, h, decide_true, if_true, Subtracts, Adds, UInt8.toNat_mod,
      UInt8.reduceToNat, hcorrected, Bool.toNat_true]
    omega
  · have hcorrected : (a - b - unit c).toNat % 16 = a.toNat - b.toNat - c.toNat := by
      rw [UInt8.toNat_sub, UInt8.toNat_sub, hunit]
      omega
    simp only [subtractDigit, h, decide_false, if_false, Subtracts, Adds, UInt8.toNat_mod,
      UInt8.reduceToNat, hcorrected, Bool.toNat_false]
    omega

/-! ## From digits to operands -/

section

variable {rule : UInt8 → UInt8 → Bool → UInt8 × Bool} {law : Law}

theorem toNat_lowDigit (v : UInt8) : (lowDigit v).toNat = v.toNat % 16 :=
  UInt8.toNat_mod v 0x10

theorem toNat_highDigit (v : UInt8) : (highDigit v).toNat = v.toNat / 16 :=
  UInt8.toNat_div v 0x10

theorem toNat_joinDigits {low high : UInt8} (hlow : low.toNat < 16) (hhigh : high.toNat < 16) :
    (joinDigits low high).toNat = low.toNat + 16 * high.toNat := by
  simp only [joinDigits, UInt8.toNat_add, UInt8.toNat_mul, UInt8.reduceToNat]
  omega

/-- A byte is packed when its digits are digits, and these make up its value. -/
theorem value_joinDigits {low high : UInt8} (hlow : low.toNat < 10) (hhigh : high.toNat < 10) :
    Packed (joinDigits low high).toNat ∧
      value (joinDigits low high).toNat = low.toNat + 10 * high.toNat := by
  have hjoin : (joinDigits low high).toNat = low.toNat + 16 * high.toNat :=
    toNat_joinDigits (by omega) (by omega)
  have hlt := (joinDigits low high).toNat_lt
  rw [packed_byte hlt, value_byte hlt, hjoin]
  omega

/-- The law of a rule holds of the two digits of a byte. -/
theorem onByte_obeys (hlaw : Chains law) (hrule : Obeys rule law) {a b : UInt8}
    (ha : Packed a.toNat) (hb : Packed b.toNat) (c : Bool) :
    Packed (onByte rule a b c).1.toNat ∧
      law 100 (value a.toNat) (value b.toNat) c (value (onByte rule a b c).1.toNat)
        (onByte rule a b c).2 := by
  rw [packed_byte a.toNat_lt, ← toNat_lowDigit, ← toNat_highDigit] at ha
  rw [packed_byte b.toNat_lt, ← toNat_lowDigit, ← toNat_highDigit] at hb
  obtain ⟨hlow, hlow_law⟩ := hrule c ha.1 hb.1
  obtain ⟨hhigh, hhigh_law⟩ := hrule (rule (lowDigit a) (lowDigit b) c).2 ha.2 hb.2
  obtain ⟨hpacked, hvalue⟩ := value_joinDigits hlow hhigh
  refine ⟨hpacked, ?_⟩
  have hboth := hlaw hlow_law hhigh_law
  rw [← hvalue] at hboth
  rw [value_byte a.toNat_lt, value_byte b.toNat_lt, ← toNat_lowDigit, ← toNat_lowDigit,
    ← toNat_highDigit, ← toNat_highDigit]
  exact hboth

/-- A word is packed when its bytes are, and these make up its value. -/
theorem value_joinBytes {low high : UInt8} (hlow : Packed low.toNat) (hhigh : Packed high.toNat) :
    Packed (joinBytes low high).toNat ∧
      value (joinBytes low high).toNat = value low.toNat + 100 * value high.toNat := by
  rw [packed_word, value_word, ← toNat_lowByte, ← toNat_highByte, lowByte_joinBytes,
    highByte_joinBytes]
  exact ⟨⟨hlow, hhigh⟩, rfl⟩

/-- The law of a rule holds of operands of both widths. -/
theorem onOperand_obeys (hlaw : Chains law) (hrule : Obeys rule law) {w : Width} {a b : UInt16}
    (ha_lt : a.toNat < w.modulus) (hb_lt : b.toNat < w.modulus) (ha : Packed a.toNat)
    (hb : Packed b.toNat) (c : Bool) :
    let result := onOperand rule w a b c
    result.1.toNat < w.modulus ∧ Packed result.1.toNat ∧
      law w.decimalModulus (value a.toNat) (value b.toNat) c (value result.1.toNat) result.2 := by
  intro result
  cases w with
  | byte =>
      -- A byte lies in the low half of the word, and the high half plays no part.
      have ha_low : (lowByte a).toNat = a.toNat := by
        rw [toNat_lowByte]
        exact Nat.mod_eq_of_lt ha_lt
      have hb_low : (lowByte b).toNat = b.toNat := by
        rw [toNat_lowByte]
        exact Nat.mod_eq_of_lt hb_lt
      rw [← ha_low] at ha
      rw [← hb_low] at hb
      have hresult : result.1.toNat = (onByte rule (lowByte a) (lowByte b) c).1.toNat :=
        UInt8.toNat_toUInt16 _
      obtain ⟨hpacked, hbyte⟩ := onByte_obeys hlaw hrule ha hb c
      rw [hresult, ← ha_low, ← hb_low]
      exact ⟨UInt8.toNat_lt _, hpacked, hbyte⟩
  | word =>
      rw [packed_word, ← toNat_lowByte, ← toNat_highByte] at ha hb
      obtain ⟨hlow, hlow_law⟩ := onByte_obeys hlaw hrule ha.1 hb.1 c
      obtain ⟨hhigh, hhigh_law⟩ := onByte_obeys hlaw hrule ha.2 hb.2
        (onByte rule (lowByte a) (lowByte b) c).2
      obtain ⟨hpacked, hvalue⟩ := value_joinBytes hlow hhigh
      -- The carry out of the low byte goes into the high one, so the laws of both chain.
      have hboth := hlaw hlow_law hhigh_law
      rw [← hvalue] at hboth
      refine ⟨UInt16.toNat_lt _, hpacked, ?_⟩
      rw [value_word a.toNat, value_word b.toNat, ← toNat_lowByte, ← toNat_lowByte,
        ← toNat_highByte, ← toNat_highByte]
      exact hboth

end

/-! ## What the laws determine -/

section

variable {m a b r : Nat} {c c' : Bool}

/-- The law leaves one result: the sum without its carry, which tells whether the sum fits. -/
theorem Adds.result (h : Adds m a b c r c') (hr : r < m) :
    r = (a + b + c.toNat) % m ∧ (c' = true ↔ m ≤ a + b + c.toNat) := by
  unfold Adds at h
  rw [h, Nat.add_mul_mod_self_left, Nat.mod_eq_of_lt hr]
  refine ⟨rfl, ?_⟩
  cases c' with
  | false => simpa using hr
  | true => simp

/-- The law leaves one result: the difference, with a borrow when the subtrahend is more. -/
theorem Subtracts.result (h : Subtracts m a b c r c') (hr : r < m) :
    (r : Int) = (a - b - c.toNat : Int) % m ∧ (c' = false ↔ b + c.toNat ≤ a) := by
  unfold Subtracts Adds at h
  have hdifference : (a - b - c.toNat : Int) = r + m * (-c'.toNat) := by
    rw [mul_neg, ← sub_eq_add_neg]
    have hcast : (r + b + c.toNat : Int) = a + m * c'.toNat := by exact_mod_cast h
    omega
  refine ⟨?_, ?_⟩
  · rw [hdifference, Int.add_mul_emod_self_left]
    exact (Int.emod_eq_of_lt (by omega) (by omega)).symm
  · cases c' with
    | false =>
        rw [Bool.toNat_false, Nat.mul_zero] at h
        simp only [true_iff]
        omega
    | true =>
        rw [Bool.toNat_true, Nat.mul_one] at h
        simp only [Bool.true_eq_false, false_iff]
        omega

/-- Subtracting what has been added, with the same carry as a borrow, leads back. -/
theorem Subtracts.eq_of_adds {sum : Nat} {d d' : Bool} (hsubtracts : Subtracts m sum b c r d')
    (hadds : Adds m a b c sum d) (ha : a < m) (hr : r < m) : r = a := by
  unfold Subtracts at hsubtracts
  unfold Adds at hadds hsubtracts
  have hmod : r + (b + c.toNat) ≡ a + (b + c.toNat) [MOD m] := by
    rw [← Nat.add_assoc, ← Nat.add_assoc, hsubtracts, hadds]
    simp [Nat.ModEq]
  exact (hmod.add_right_cancel' _).eq_of_lt_of_lt hr ha

end

theorem eq_of_value_eq {v v' : UInt16} (hv : Packed v.toNat) (hv' : Packed v'.toNat)
    (h : value v.toNat = value v'.toNat) : v = v' := by
  apply UInt16.toNat_inj.mp
  rw [← pack_value hv, ← pack_value hv', h]

end Decimal

namespace Arithmetic

open Decimal

variable {s : Status} {w : Width} {a b : UInt16}

/-! ## Decimal additions and subtractions -/

/-- The sum of packed operands. -/
theorem addWithCarry_decimal (hd : s.decimal = true) (ha_lt : a.toNat < w.modulus)
    (hb_lt : b.toNat < w.modulus) (ha : Packed a.toNat) (hb : Packed b.toNat) :
    let sum := addWithCarry s w a b
    sum.1.toNat < w.modulus ∧ Packed sum.1.toNat ∧
      Adds w.decimalModulus (value a.toNat) (value b.toNat) s.carry (value sum.1.toNat)
        sum.2.carry := by
  intro sum
  have hsum : sum.1 = (Decimal.add w a b s.carry).1 ∧
      sum.2.carry = (Decimal.add w a b s.carry).2 := by
    simp only [sum]
    rw [addWithCarry, hd]
    exact ⟨rfl, rfl⟩
  rw [hsum.1, hsum.2]
  exact onOperand_obeys adds_chains addDigit_obeys ha_lt hb_lt ha hb s.carry

/-- The difference of packed operands. The carry is the absence of a borrow. -/
theorem subtractWithBorrow_decimal (hd : s.decimal = true) (ha_lt : a.toNat < w.modulus)
    (hb_lt : b.toNat < w.modulus) (ha : Packed a.toNat) (hb : Packed b.toNat) :
    let difference := subtractWithBorrow s w a b
    difference.1.toNat < w.modulus ∧ Packed difference.1.toNat ∧
      Subtracts w.decimalModulus (value a.toNat) (value b.toNat) (!s.carry)
        (value difference.1.toNat) (!difference.2.carry) := by
  intro difference
  have hdifference : difference.1 = (Decimal.subtract w a b (!s.carry)).1 ∧
      difference.2.carry = !(Decimal.subtract w a b (!s.carry)).2 := by
    simp only [difference]
    rw [subtractWithBorrow, hd]
    exact ⟨rfl, rfl⟩
  rw [hdifference.1, hdifference.2, Bool.not_not]
  exact onOperand_obeys subtracts_chains subtractDigit_obeys ha_lt hb_lt ha hb (!s.carry)

end Arithmetic

/-- Decimal addition and subtraction of packed operands of both widths.

    * Sum and difference are those of the numbers that the operands are packed from, modulo the
      number of values, and packed again. The carry is added, and one is subtracted unless it is
      set.
    * Afterwards the carry tells of a sum that reaches the number of values, and of a difference
      that needs no borrow. Z and N describe the result.
    * Subtracting an operand again, with the opposite of the carry it was added with, leads back to
      the other operand. -/
theorem decimal_arithmetic_exact (s : Status) (w : Width) (a b : UInt16)
    (hd : s.decimal = true) (ha_lt : a.toNat < w.modulus) (hb_lt : b.toNat < w.modulus)
    (ha : Decimal.Packed a.toNat) (hb : Decimal.Packed b.toNat) :
    let c := s.carry.toNat
    let m := w.decimalModulus
    let dec := fun v : UInt16 => Decimal.value v.toNat
    let sum := Arithmetic.addWithCarry s w a b
    let difference := Arithmetic.subtractWithBorrow s w a b
    (sum.1.toNat = Decimal.pack ((dec a + dec b + c) % m) ∧
      (sum.2.carry = true ↔ m ≤ dec a + dec b + c) ∧
      sum.2.Describes w sum.1 ∧ Decimal.Packed sum.1.toNat) ∧
    (difference.1.toNat = Decimal.pack ((dec a - dec b - (1 - c) : Int) % m).toNat ∧
      (difference.2.carry = true ↔ dec b + (1 - c) ≤ dec a) ∧
      difference.2.Describes w difference.1 ∧ Decimal.Packed difference.1.toNat) ∧
    (∀ s' : Status, s'.decimal = true → s'.carry = !s.carry →
      (Arithmetic.subtractWithBorrow s' w sum.1 b).1 = a) := by
  intro c m dec sum difference
  obtain ⟨hsum_lt, hsum, hadds⟩ :=
    Arithmetic.addWithCarry_decimal hd ha_lt hb_lt ha hb
  obtain ⟨hdifference_lt, hdifference, hsubtracts⟩ :=
    Arithmetic.subtractWithBorrow_decimal hd ha_lt hb_lt ha hb
  obtain ⟨hsum_value, hcarry⟩ := hadds.result (Decimal.value_lt hsum_lt hsum)
  obtain ⟨hdifference_value, hnoborrow⟩ :=
    hsubtracts.result (Decimal.value_lt hdifference_lt hdifference)
  -- The carry flag stands for the absence of a borrow, in numbers as well.
  have hborrow : (!s.carry).toNat = 1 - c ∧ ((!s.carry).toNat : Int) = 1 - c := by
    simp only [c]
    cases s.carry with
    | false => exact ⟨rfl, rfl⟩
    | true => exact ⟨rfl, rfl⟩
  rw [hborrow.2] at hdifference_value
  rw [hborrow.1, Bool.not_eq_false'] at hnoborrow
  refine ⟨⟨?_, hcarry, Arithmetic.addWithCarry_describes hsum_lt, hsum⟩,
    ⟨?_, hnoborrow, Arithmetic.subtractWithBorrow_describes hdifference_lt, hdifference⟩, ?_⟩
  · rw [← hsum_value]
    exact (Decimal.pack_value hsum).symm
  · rw [← hdifference_value, Int.toNat_natCast]
    exact (Decimal.pack_value hdifference).symm
  -- The difference of the sum and `b` makes up the sum together with `b`, as `a` does.
  · intro s' hd' hc'
    obtain ⟨hback_lt, hback, hsubtracts'⟩ :=
      Arithmetic.subtractWithBorrow_decimal hd' hsum_lt hb_lt hsum hb
    rw [hc', Bool.not_not] at hsubtracts'
    exact Decimal.eq_of_value_eq hback ha (hsubtracts'.eq_of_adds hadds (Decimal.value_lt ha_lt ha)
      (Decimal.value_lt hback_lt hback))

/-- A borrow that goes through three digits of a word, from one byte to the other. -/
theorem borrow_through_word :
    let s := { Status.powerOn with carry := true, decimal := true }
    let difference := Arithmetic.subtractWithBorrow s .word 0x1000 0x0001
    Decimal.Packed 0x1000 ∧ Decimal.Packed 0x0001 ∧ difference.1.toNat = 0x0999 ∧
      difference.2.carry = true := by
  intro s difference
  have ha : Decimal.Packed 0x1000 := by decide
  have hb : Decimal.Packed 0x0001 := by decide
  obtain ⟨-, ⟨hvalue, hcarry, -, -⟩, -⟩ :=
    decimal_arithmetic_exact s .word 0x1000 0x0001 rfl (by decide) (by decide) ha hb
  refine ⟨ha, hb, hvalue.trans ?_, hcarry.mpr ?_⟩
  · decide
  · decide

end W65C816
