import W65C816.Word

/-!
# The processor status

The status register `P` is kept as a record of flags. Its packed form exists only at the edges:
when `P` is pushed or pulled, when an interrupt is entered or left, and in the masks of `REP` and
`SEP`.

    bit        7 6 5 4 3 2 1 0
    native     N V M X D I Z C
    emulation  N V 1 B D I Z C

* In native mode bit 5 and bit 4 are the width flags. In emulation mode all registers are a byte
  wide, bit 5 reads as one, and bit 4 is the break flag.
* `Status.pack` and `Status.load` are the two directions; `Status.pull` is `load` for a value that
  comes from the stack, where the break flag is not loaded.
* `Status.accumulatorWidth` and `Status.indexWidth` are the widths in effect.
-/

namespace W65C816

/-- The flags of the processor. A narrow register is one byte wide. -/
structure Status where
  carry : Bool
  zero : Bool
  irqDisable : Bool
  decimal : Bool
  breakFlag : Bool
  narrowAccumulator : Bool
  narrowIndex : Bool
  emulation : Bool
  overflow : Bool
  negative : Bool
  deriving DecidableEq, Repr, Inhabited

namespace Status

/-- Emulation mode with narrow registers and interrupt requests disabled. -/
def powerOn : Status where
  carry := false
  zero := false
  irqDisable := true
  decimal := false
  breakFlag := false
  narrowAccumulator := true
  narrowIndex := true
  emulation := true
  overflow := false
  negative := false

/-- Width of the accumulator and of memory operands. In emulation mode it is always a byte. -/
def accumulatorWidth (s : Status) : Width :=
  if s.emulation || s.narrowAccumulator then .byte else .word

/-- Width of the index registers. In emulation mode it is always a byte. -/
@[inline] def indexWidth (s : Status) : Width :=
  if s.emulation || s.narrowIndex then .byte else .word

/-! ## The packed form -/

/-- A flag as the bit of the given weight. -/
def weigh (flag : Bool) (weight : UInt8) : UInt8 :=
  if flag then weight else 0

/-- True when `v` has the bit of the given weight set. -/
def has (v weight : UInt8) : Bool :=
  v &&& weight != 0

/-- The packed form of the flags. -/
def pack (s : Status) : UInt8 :=
  weigh s.carry 0x01 ||| weigh s.zero 0x02 ||| weigh s.irqDisable 0x04 ||| weigh s.decimal 0x08 |||
    weigh (if s.emulation then s.breakFlag else s.narrowIndex) 0x10 |||
    weigh (s.emulation || s.narrowAccumulator) 0x20 |||
    weigh s.overflow 0x40 ||| weigh s.negative 0x80

/-- Loads all flags from a packed value. The emulation flag is not part of it. In emulation mode
    bit 4 goes to the break flag and bit 5 nowhere. -/
def load (s : Status) (v : UInt8) : Status :=
  { s with
    carry := has v 0x01
    zero := has v 0x02
    irqDisable := has v 0x04
    decimal := has v 0x08
    breakFlag := if s.emulation then has v 0x10 else s.breakFlag
    narrowIndex := if s.emulation then s.narrowIndex else has v 0x10
    narrowAccumulator := if s.emulation then s.narrowAccumulator else has v 0x20
    overflow := has v 0x40
    negative := has v 0x80 }

/-- Loads the flags from a value pulled from the stack. The break flag exists only in pushed
    values, so it stays as it is. -/
def pull (s : Status) (v : UInt8) : Status :=
  { s.load v with breakFlag := s.breakFlag }

/-- Gives the value `state` to every flag whose bit is set in `v`. In emulation mode the width
    flags are out of reach. -/
def assign (s : Status) (v : UInt8) (state : Bool) : Status :=
  { s with
    carry := if has v 0x01 then state else s.carry
    zero := if has v 0x02 then state else s.zero
    irqDisable := if has v 0x04 then state else s.irqDisable
    decimal := if has v 0x08 then state else s.decimal
    narrowIndex := if !s.emulation && has v 0x10 then state else s.narrowIndex
    narrowAccumulator := if !s.emulation && has v 0x20 then state else s.narrowAccumulator
    overflow := if has v 0x40 then state else s.overflow
    negative := if has v 0x80 then state else s.negative }

/-- Sets every flag whose bit is set in `v`, as `SEP` does. -/
def setBits (s : Status) (v : UInt8) : Status :=
  s.assign v true

/-- Clears every flag whose bit is set in `v`, as `REP` does. -/
def clearBits (s : Status) (v : UInt8) : Status :=
  s.assign v false

/-! ## Flags of a result -/

/-- Lets Z and N tell whether `v`, taken at width `w`, is zero and whether its top bit is set. -/
def withResult (s : Status) (w : Width) (v : UInt16) : Status :=
  { s with zero := w.isZero v, negative := w.isNegative v }

/-- Enters or leaves emulation mode. Entering makes all registers narrow. -/
def switchMode (s : Status) (emulation : Bool) : Status :=
  { s with
    emulation
    narrowAccumulator := emulation || s.narrowAccumulator
    narrowIndex := emulation || s.narrowIndex }

/-! ## Laws of the packed form -/

theorem has_or (u v w : UInt8) : has (u ||| v) w = (has u w || has v w) := by
  have hz : ∀ x y : UInt8, x ||| y = 0 ↔ x = 0 ∧ y = 0 := by
    intro x y
    simp only [← UInt8.toBitVec_inj, UInt8.toBitVec_or]
    exact BitVec.or_eq_zero_iff
  have hd : (u ||| v) &&& w = (u &&& w) ||| (v &&& w) := by
    apply UInt8.toBitVec_inj.mp
    ext i
    simp [Bool.and_or_distrib_right]
  rw [Bool.eq_iff_iff]
  simp only [has, hd, bne_iff_ne, ne_eq, hz, Bool.or_eq_true]
  exact Decidable.not_and_iff_or_not

/-- A flag is found in a packed byte at the bit that it weighs, and nowhere else. -/
theorem has_weigh (f : Bool) (u w : UInt8) : has (weigh f u) w = (f && has u w) := by
  cases f with
  | true => simp [weigh]
  | false => simp [weigh, has]

/-- Each bit of the packed form is one flag. Bits 4 and 5 depend on the mode. -/
theorem has_pack (s : Status) :
    has s.pack 0x01 = s.carry ∧ has s.pack 0x02 = s.zero ∧ has s.pack 0x04 = s.irqDisable ∧
      has s.pack 0x08 = s.decimal ∧
      has s.pack 0x10 = (if s.emulation then s.breakFlag else s.narrowIndex) ∧
      has s.pack 0x20 = (s.emulation || s.narrowAccumulator) ∧
      has s.pack 0x40 = s.overflow ∧ has s.pack 0x80 = s.negative := by
  refine ⟨?_, ?_, ?_, ?_, ?_, ?_, ?_, ?_⟩ <;> rw [Bool.eq_iff_iff] <;>
    simp +decide [pack, has_or, has_weigh]

/-- Unpacking what was packed changes nothing, in either mode. -/
theorem load_pack (s : Status) : s.load s.pack = s := by
  obtain ⟨hc, hz, hi, hd, hx, hm, hv, hn⟩ := s.has_pack
  cases he : s.emulation with
  | true =>
      simp only [load, hc, hz, hi, hd, hx, hv, hn, he, if_true]
      rw [← he]
  | false =>
      simp only [load, hc, hz, hi, hd, hx, hm, hv, hn, he, Bool.false_eq_true, if_false,
        Bool.false_or]
      rw [← he]

end Status

end W65C816
