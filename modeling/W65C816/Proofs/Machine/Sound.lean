import W65C816.Instruction.Effect

/-!
# Sound registers

The mode is stored twice, in the flags and in the stack, and whatever changes a width has to cut the
index registers to it. `Registers.Sound` says that neither has been forgotten.

* Flags can change at will as long as the widths stay (`Status.SameWidths`). When a width changes
  (`Status.SameMode`), the index registers have to be narrowed afterwards.
* `Registers.switchMode` makes any registers sound.
* `Effect.Respects` says that the functions of an effect keep registers sound, and
  `Instruction.effect_respects` goes through all operations.
-/

namespace W65C816

/-! ## Flags -/

namespace Status

/-- The mode and both width flags are the same. -/
structure SameWidths (s t : Status) : Prop where
  emulation : t.emulation = s.emulation
  narrowAccumulator : t.narrowAccumulator = s.narrowAccumulator
  narrowIndex : t.narrowIndex = s.narrowIndex

/-- The mode is the same, and in emulation mode the width flags are. -/
structure SameMode (s t : Status) : Prop where
  emulation : t.emulation = s.emulation
  narrow : s.emulation = true →
    t.narrowAccumulator = s.narrowAccumulator ∧ t.narrowIndex = s.narrowIndex

theorem SameWidths.sameMode {s t : Status} (h : s.SameWidths t) : s.SameMode t :=
  ⟨h.emulation, fun _ => ⟨h.narrowAccumulator, h.narrowIndex⟩⟩

theorem SameWidths.indexWidth_eq {s t : Status} (h : s.SameWidths t) :
    t.indexWidth = s.indexWidth := by
  rw [indexWidth, indexWidth, h.emulation, h.narrowIndex]

theorem SameWidths.accumulatorWidth_eq {s t : Status} (h : s.SameWidths t) :
    t.accumulatorWidth = s.accumulatorWidth := by
  rw [accumulatorWidth, accumulatorWidth, h.emulation, h.narrowAccumulator]

/-- A status byte that is loaded does not switch modes, and in emulation mode it cannot make
    registers wide. -/
theorem load_sameMode (s : Status) (v : UInt8) : s.SameMode (s.load v) := by
  refine ⟨rfl, ?_⟩
  intro he
  simp only [load]
  rw [if_pos he, if_pos he]
  exact ⟨rfl, rfl⟩

theorem pull_sameMode (s : Status) (v : UInt8) : s.SameMode (s.pull v) :=
  ⟨rfl, (s.load_sameMode v).narrow⟩

/-- Flags assigned by a mask leave the mode alone, and in emulation mode the widths too. -/
theorem assign_sameMode (s : Status) (v : UInt8) (state : Bool) :
    s.SameMode (s.assign v state) := by
  refine ⟨rfl, ?_⟩
  intro he
  simp [assign, he]

/-- A result sets Z and N, and no width follows from these. -/
theorem withResult_sameWidths (s : Status) (w : Width) (v : UInt16) :
    s.SameWidths (s.withResult w v) :=
  ⟨rfl, rfl, rfl⟩

end Status

/-- Sums set C and V besides, decimal or not. -/
theorem Arithmetic.addWithCarry_sameWidths (s : Status) (w : Width) (a b : UInt16) :
    s.SameWidths (addWithCarry s w a b).2 :=
  ⟨rfl, rfl, rfl⟩

theorem Arithmetic.subtractWithBorrow_sameWidths (s : Status) (w : Width) (a b : UInt16) :
    s.SameWidths (subtractWithBorrow s w a b).2 :=
  ⟨rfl, rfl, rfl⟩

/-! ## The stack -/

namespace Stack

/-- A stack that is made confined lies on page 1. -/
theorem page_make {confined : Bool} (hconfined : confined = true) (pointer : UInt16) :
    0x100 ≤ (make pointer confined).pointer ∧ (make pointer confined).pointer ≤ 0x1FF := by
  have hlt := Nat.mod_lt pointer.toNat (show 0x100 > 0 by decide)
  have hpointer : (make pointer confined).pointer = 0x100 + pointer % 0x100 := if_pos hconfined
  rw [hpointer, UInt16.le_iff_toNat_le, UInt16.le_iff_toNat_le, UInt16.toNat_add,
    UInt16.toNat_mod]
  simp only [UInt16.reduceToNat]
  omega

end Stack

/-! ## Registers -/

namespace Registers

/-- The stack and both width flags go with the mode. -/
structure ModeSound (r : Registers) : Prop where
  confined : r.stack.confined = r.status.emulation
  narrow : r.status.emulation = true →
    r.status.narrowAccumulator = true ∧ r.status.narrowIndex = true
  page : r.status.emulation = true → 0x100 ≤ r.stack.pointer ∧ r.stack.pointer ≤ 0x1FF

/-- The stack and both width flags go with the mode, and narrow index registers hold bytes. -/
structure Sound (r : Registers) : Prop extends r.ModeSound where
  x : r.status.indexWidth = .byte → r.x ≤ 0xFF
  y : r.status.indexWidth = .byte → r.y ≤ 0xFF

namespace ModeSound

variable {r : Registers}

/-- In the same mode, the stack stays where it has to be. -/
theorem setStatus (h : r.ModeSound) {s : Status} (hs : r.status.SameMode s) :
    ({ r with status := s } : Registers).ModeSound := by
  constructor
  · exact h.confined.trans hs.emulation.symm
  · intro he
    rw [show s.emulation = r.status.emulation from hs.emulation] at he
    rw [(hs.narrow he).1, (hs.narrow he).2]
    exact h.narrow he
  · intro he
    exact h.page (hs.emulation.symm.trans he)

/-- Narrowing the index registers is all that is missing when a width has changed. -/
theorem narrowIndexes (h : r.ModeSound) : r.narrowIndexes.Sound := by
  constructor
  · exact ⟨h.confined, h.narrow, h.page⟩
  · exact r.status.indexWidth.fits_truncate r.x
  · exact r.status.indexWidth.fits_truncate r.y

end ModeSound

namespace Sound

variable {r : Registers}

/-- Registers that the widths say nothing about can change at will. -/
theorem frame (h : r.Sound) {r' : Registers} (hstack : r'.stack = r.stack)
    (hstatus : r'.status = r.status) (hx : r'.x = r.x) (hy : r'.y = r.y) : r'.Sound := by
  constructor
  · constructor
    · rw [hstack, hstatus]
      exact h.confined
    · rw [hstatus]
      exact h.narrow
    · rw [hstack, hstatus]
      exact h.page
  · rw [hstatus, hx]
    exact h.x
  · rw [hstatus, hy]
    exact h.y

/-- With flags of the same widths, index registers that hold bytes need not be looked at again. -/
theorem setStatus (h : r.Sound) {s : Status} (hs : r.status.SameWidths s) :
    ({ r with status := s } : Registers).Sound := by
  constructor
  · exact h.toModeSound.setStatus hs.sameMode
  · show s.indexWidth = .byte → r.x ≤ 0xFF
    rw [hs.indexWidth_eq]
    exact h.x
  · show s.indexWidth = .byte → r.y ≤ 0xFF
    rw [hs.indexWidth_eq]
    exact h.y

theorem setX (h : r.Sound) {v : UInt16} (hv : r.status.indexWidth.Fits v) :
    ({ r with x := v } : Registers).Sound :=
  ⟨⟨h.confined, h.narrow, h.page⟩, hv, h.y⟩

theorem setY (h : r.Sound) {v : UInt16} (hv : r.status.indexWidth.Fits v) :
    ({ r with y := v } : Registers).Sound :=
  ⟨⟨h.confined, h.narrow, h.page⟩, h.x, hv⟩

/-- The accumulator may hold anything, whatever its width. Its high byte is then hidden. -/
theorem setAccumulator (h : r.Sound) (v : UInt16) : (r.setAccumulator v).Sound := by
  rw [Registers.setAccumulator]
  cases r.status.accumulatorWidth with
  | byte => exact h.frame rfl rfl rfl rfl
  | word => exact h.frame rfl rfl rfl rfl

/-- Where no register becomes narrow, nothing is left to be narrowed. -/
theorem narrowIndexes_eq (h : r.Sound) {s : Status}
    (hs : s.indexWidth = .byte → r.status.indexWidth = .byte) :
    ({ r with status := s } : Registers).narrowIndexes = { r with status := s } := by
  have hx : s.indexWidth.truncate r.x = r.x := Width.truncate_of_fits fun hw => h.x (hs hw)
  have hy : s.indexWidth.truncate r.y = r.y := Width.truncate_of_fits fun hw => h.y (hs hw)
  simp only [narrowIndexes, indexed, hx, hy]

/-- A stack that moves stays on its page. -/
theorem relocate (h : r.Sound) (v : UInt16) :
    ({ r with stack := r.stack.relocate v } : Registers).Sound := by
  refine ⟨⟨h.confined, h.narrow, ?_⟩, h.x, h.y⟩
  intro he
  exact Stack.page_make (h.confined.trans he) v

end Sound

/-- A change of the mode makes registers sound, whatever they were. -/
theorem switchMode_sound (r : Registers) (emulation : Bool) : (r.switchMode emulation).Sound := by
  constructor
  · constructor
    · rfl
    · intro he
      obtain rfl : emulation = true := he
      exact ⟨rfl, rfl⟩
    · intro he
      exact Stack.page_make he r.stack.pointer
  · exact (r.status.switchMode emulation).indexWidth.fits_truncate r.x
  · exact (r.status.switchMode emulation).indexWidth.fits_truncate r.y

/-- A reset puts the stack on page 1 and makes all registers narrow. -/
theorem reset_sound (r : Registers) : r.reset.Sound :=
  (switchMode_sound _ true).frame rfl rfl rfl rfl

end Registers

/-! ## Functions on registers -/

namespace Effect

variable {r : Registers}

theorem loadAccumulator_sound (h : r.Sound) (w : Width) (v : UInt16) :
    (loadAccumulator w v r).Sound :=
  (h.setStatus (r.status.withResult_sameWidths w v)).setAccumulator v

/-- Loading an index register needs to know that the operand is as wide as the register. -/
theorem loadX_sound (h : r.Sound) (w : Width) {v : UInt16} (hv : r.status.indexWidth.Fits v) :
    (loadX w v r).Sound :=
  (h.setX hv).setStatus (r.status.withResult_sameWidths w v)

theorem loadY_sound (h : r.Sound) (w : Width) {v : UInt16} (hv : r.status.indexWidth.Fits v) :
    (loadY w v r).Sound :=
  (h.setY hv).setStatus (r.status.withResult_sameWidths w v)

/-- A calculation may set flags, as long as it does not change the widths. -/
theorem calculate_sound {f : Status → Width → UInt16 → UInt16 → UInt16 × Status}
    (hf : ∀ (s : Status) w a b, s.SameWidths (f s w a b).2) (h : r.Sound) (w : Width) (v : UInt16) :
    (calculate f w v r).Sound :=
  (h.setStatus (hf r.status w r.accumulator v)).setAccumulator _

theorem compare_sound (h : r.Sound) (register : Registers → UInt16) (w : Width) (v : UInt16) :
    (compare register w v r).Sound :=
  h.setStatus ⟨rfl, rfl, rfl⟩

theorem testBits_sound (h : r.Sound) (immediate : Bool) (w : Width) (v : UInt16) :
    (testBits immediate w v r).Sound := by
  cases immediate with
  | true => exact h.setStatus ⟨rfl, rfl, rfl⟩
  | false => exact h.setStatus ⟨rfl, rfl, rfl⟩

/-- A transfer truncates to the width of the register. -/
theorem toX_sound (h : r.Sound) (v : UInt16) : (toX v r).Sound :=
  loadX_sound h _ (Width.fits_truncate _ v)

theorem toY_sound (h : r.Sound) (v : UInt16) : (toY v r).Sound :=
  loadY_sound h _ (Width.fits_truncate _ v)

theorem toWholeAccumulator_sound (h : r.Sound) (v : UInt16) : (toWholeAccumulator v r).Sound :=
  (h.setStatus (r.status.withResult_sameWidths .word v)).frame rfl rfl rfl rfl

theorem toDirect_sound (h : r.Sound) (v : UInt16) : (toDirect v r).Sound :=
  (h.setStatus (r.status.withResult_sameWidths .word v)).frame rfl rfl rfl rfl

theorem exchangeBytes_sound (h : r.Sound) : (exchangeBytes r).Sound :=
  (h.setStatus (r.status.withResult_sameWidths .byte _)).frame rfl rfl rfl rfl

/-- The operations on a single flag name none that decides a width. -/
theorem flags_sound {f : Status → Status} (hf : ∀ s : Status, s.SameWidths (f s)) (h : r.Sound) :
    (flags f r).Sound :=
  h.setStatus (hf r.status)

/-- Changed flags, with their effect on the index registers. -/
theorem narrowIndexes_sound (h : r.Sound) {s : Status} (hs : r.status.SameMode s) :
    ({ r with status := s } : Registers).narrowIndexes.Sound :=
  (h.toModeSound.setStatus hs).narrowIndexes

/-- The status that is pulled may make index registers narrow, and then they are narrowed. -/
theorem pullStatus_sound (h : r.Sound) (v : UInt8) : (pullStatus v r).Sound :=
  narrowIndexes_sound h (r.status.pull_sameMode v)

/-- The data bank is loaded with a byte, and the flags tell about it. -/
theorem loadDataBank_sound (h : r.Sound) (v : UInt16) :
    ({ r with dbr := lowByte v, status := r.status.withResult .byte v } : Registers).Sound :=
  (h.setStatus (r.status.withResult_sameWidths .byte v)).frame rfl rfl rfl rfl

/-! ## The table -/

/-- The functions of an effect keep registers sound. What is read or pulled fits its width. -/
def Respects : Effect → Prop
  | read size absorb | pull size absorb => ∀ (r : Registers) v, r.Sound →
      (size.width r.status).Fits v → (absorb (size.width r.status) v r).Sound
  | alter change => ∀ w v (r : Registers), r.status.SameWidths (change w v r).2
  | adjust change => ∀ r : Registers, r.Sound → (change r).Sound
  | mask change => ∀ (s : Status) v, s.SameMode (change s v)
  | _ => True

end Effect

open Effect in
/-- Every operation keeps registers sound. -/
theorem Instruction.effect_respects (i : Instruction) : i.effect.Respects := by
  obtain ⟨operation, mode, baseCycles⟩ := i
  -- One line for each family of operations. Where widths can change, the registers are narrowed by
  -- the function itself.
  cases operation with
  | adc => exact fun r v h _ => calculate_sound Arithmetic.addWithCarry_sameWidths h _ v
  | sbc => exact fun r v h _ => calculate_sound Arithmetic.subtractWithBorrow_sameWidths h _ v
  | and | ora | eor | lda | pla => exact fun r v h _ => loadAccumulator_sound h _ _
  | cmp | cpx | cpy => exact fun r v h _ => compare_sound h _ _ v
  | bit => exact fun r v h _ => testBits_sound h _ _ v
  | ldx | plx => exact fun r v h hv => loadX_sound h _ hv
  | ldy | ply => exact fun r v h hv => loadY_sound h _ hv
  | plp => exact fun r v h _ => pullStatus_sound h (lowByte v)
  | plb => exact fun r v h _ => loadDataBank_sound h v
  | pld => exact fun r v h _ => toDirect_sound h v
  | tsb | trb | asl | lsr | rol | ror | inc | dec => exact fun w v r => ⟨rfl, rfl, rfl⟩
  | inx | dex | tax | tsx | tyx => exact fun r h => toX_sound h _
  | iny | dey | tay | txy => exact fun r h => toY_sound h _
  | txa | tya => exact fun r h => loadAccumulator_sound h _ _
  | txs | tcs => exact fun r h => h.relocate _
  | tcd => exact fun r h => toDirect_sound h _
  | tdc | tsc => exact fun r h => toWholeAccumulator_sound h _
  | xba => exact fun r h => exchangeBytes_sound h
  | xce => exact fun r _ => Registers.switchMode_sound _ _
  | nop | wdm => exact fun r h => h
  | clc | sec | cli | sei | cld | sed | clv =>
      exact fun r h => flags_sound (fun s => ⟨rfl, rfl, rfl⟩) h
  | rep => exact fun s v => s.assign_sameMode v false
  | sep => exact fun s v => s.assign_sameMode v true
  | _ => trivial

end W65C816
