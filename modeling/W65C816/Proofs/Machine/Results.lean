import W65C816.Machine.Console
import W65C816.Proofs.Arithmetic.Binary
import W65C816.Proofs.Machine.Addressing
import W65C816.Proofs.Machine.Footprint

/-!
# What Z and N tell of a result

An instruction that has a result lets Z and N tell of it. They are set before the result is where it
goes, and the widths of where it comes from and where it goes may differ. So what is said here is
about what is found at the destination afterwards, at the width of the destination.

* `Instruction.destination` says which instructions these are and where their results go.
  `Destination.size` is what decides the width.
* `Effect.Tells` is what has to be said of the functions in the table of effects, and
  `Instruction.effect_tells` goes through the table.
* `Action.execute_alter_memory` is about operands that are altered in memory: what is there
  afterwards is what the flags were set by.
* `flags_describe_result` puts this together for a step.
-/

namespace W65C816

/-! ## Destinations -/

/-- Where the result of an instruction goes. -/
inductive Destination where
  /-- As much of the accumulator as is in use. -/
  | accumulator
  | wholeAccumulator
  /-- The low byte of the accumulator. -/
  | lowAccumulator
  | x
  | y
  | direct
  | dataBank
  /-- The operand at the effective address. -/
  | memory
  deriving DecidableEq, Repr

namespace Destination

/-- What decides how wide a result is. -/
def size : Destination → OperandSize
  | accumulator | memory => .accumulator
  | wholeAccumulator | direct => .word
  | lowAccumulator | dataBank => .byte
  | x | y => .index

/-- What is found at a destination, by the registers and the operand. -/
def value (d : Destination) (r : Registers) (operand : UInt16) : UInt16 :=
  match d with
  | accumulator => r.accumulator
  | wholeAccumulator => r.a
  | lowAccumulator => (lowByte r.a).toUInt16
  | x => r.x
  | y => r.y
  | direct => r.d
  | dataBank => r.dbr.toUInt16
  | memory => operand

end Destination

/-- Where an instruction puts a result that Z and N tell of. -/
def Instruction.destination (i : Instruction) : Option Destination :=
  match i.operation with
  | .lda | .adc | .sbc | .and | .ora | .eor | .pla | .txa | .tya => some .accumulator
  | .tdc | .tsc => some .wholeAccumulator
  | .xba => some .lowAccumulator
  | .ldx | .plx | .tax | .tyx | .tsx | .inx | .dex => some .x
  | .ldy | .ply | .tay | .txy | .iny | .dey => some .y
  | .tcd | .pld => some .direct
  | .plb => some .dataBank
  | .inc | .dec | .asl | .lsr | .rol | .ror =>
      some (if i.mode = .accumulator then .accumulator else .memory)
  | _ => none

/-! ## Results of functions on registers -/

/-- The flags tell of a value that has this width. -/
def Status.Tells (s : Status) (w : Width) (v : UInt16) : Prop :=
  v.toNat < w.modulus ∧ s.Describes w v

/-- The flags tell of what is at a destination in the registers. -/
def Registers.Tells (r : Registers) (d : Destination) (w : Width) : Prop :=
  ∀ operand, r.status.Tells w (d.value r operand)

theorem Status.withResult_tells (s : Status) {w : Width} {v : UInt16} (h : v.toNat < w.modulus) :
    (s.withResult w v).Tells w v :=
  ⟨h, s.withResult_describes h⟩

namespace Width

/-- What lies above an operand is not part of its sign. -/
theorem isNegative_truncate (w : Width) (v : UInt16) :
    w.isNegative (w.truncate v) = w.isNegative v := by
  cases w with
  | word => rfl
  | byte =>
      have hbit : v.toNat % 2 ^ 8 &&& 2 ^ 7 = v.toNat &&& 2 ^ 7 := by
        rw [Nat.and_two_pow, Nat.and_two_pow, Nat.testBit_mod_two_pow]
        rfl
      have hsign : byte.truncate v &&& byte.signBit = v &&& byte.signBit := by
        apply UInt16.toNat_inj.mp
        rw [UInt16.toNat_and, UInt16.toNat_and, toNat_truncate]
        exact hbit
      rw [isNegative, isNegative, hsign]

/-- What lies above the width does not count. -/
theorem isZero_truncate (w : Width) (v : UInt16) : w.isZero (w.truncate v) = w.isZero v := by
  rw [isZero, isZero, truncate_of_fits (w.fits_truncate v)]

theorem truncate_of_lt {w : Width} {v : UInt16} (h : v.toNat < w.modulus) : w.truncate v = v :=
  UInt16.toNat_inj.mp (toNat_truncate_of_lt h)

theorem truncate_lt (w : Width) (v : UInt16) : (w.truncate v).toNat < w.modulus :=
  lt_modulus_of_fits (w.fits_truncate v)

end Width

/-- The flags tell of as much of a value as the operand holds. -/
theorem Status.withResult_truncate (s : Status) (w : Width) (v : UInt16) :
    s.withResult w (w.truncate v) = s.withResult w v := by
  rw [withResult, withResult, Width.isZero_truncate, Width.isNegative_truncate]

namespace Arithmetic

variable {s : Status} {w : Width} {a b : UInt16}

/-- A binary sum fits its width, whatever the operands. -/
theorem addBinary_lt (carry : Bool) : (addBinary w a b carry).1.toNat < w.modulus := by
  rw [addBinary, UInt16.toNat_ofNat']
  exact Nat.lt_of_le_of_lt (Nat.mod_le _ _) (Nat.mod_lt _ w.modulus_pos)

/-- A decimal result fits its width, also when the operands are not packed. -/
theorem onOperand_lt (rule : UInt8 → UInt8 → Bool → UInt8 × Bool) (carry : Bool) :
    (Decimal.onOperand rule w a b carry).1.toNat < w.modulus := by
  cases w with
  | byte => exact Width.lt_modulus_of_fits (Width.fits_toUInt16 .byte _)
  | word => exact UInt16.toNat_lt _

theorem addWithCarry_tells : (addWithCarry s w a b).2.Tells w (addWithCarry s w a b).1 := by
  have hlt : (addWithCarry s w a b).1.toNat < w.modulus := by
    rw [addWithCarry]
    cases s.decimal with
    | true => exact onOperand_lt Decimal.addDigit s.carry
    | false => exact addBinary_lt s.carry
  exact ⟨hlt, addWithCarry_describes hlt⟩

theorem subtractWithBorrow_tells :
    (subtractWithBorrow s w a b).2.Tells w (subtractWithBorrow s w a b).1 := by
  have hlt : (subtractWithBorrow s w a b).1.toNat < w.modulus := by
    rw [subtractWithBorrow]
    cases s.decimal with
    | true => exact onOperand_lt Decimal.subtractDigit !s.carry
    | false => exact addBinary_lt s.carry
  exact ⟨hlt, subtractWithBorrow_describes hlt⟩

end Arithmetic

namespace Registers

variable {r : Registers}

theorem status_setAccumulator (r : Registers) (v : UInt16) :
    (r.setAccumulator v).status = r.status := by
  rw [setAccumulator]
  cases r.status.accumulatorWidth with
  | byte => rfl
  | word => rfl

/-- The accumulator holds what is stored into it, as far as it is in use. -/
theorem accumulator_setAccumulator (r : Registers) (v : UInt16) :
    (r.setAccumulator v).accumulator = r.status.accumulatorWidth.truncate v := by
  rw [accumulator, status_setAccumulator, setAccumulator]
  cases r.status.accumulatorWidth with
  | byte =>
      apply UInt16.toNat_inj.mp
      simp only [Width.toNat_truncate, Width.modulus, toNat_joinBytes, toNat_lowByte]
      omega
  | word => rfl

/-- No result goes to the program counter. -/
theorem Tells.skip {d : Destination} {w : Width} (h : r.Tells d w) (n : UInt16) :
    (r.skip n).Tells d w := by
  intro operand
  cases d with
  | _ => exact h operand

/-- The accumulator is read back at the width that it has been set at. -/
theorem setAccumulator_tells {w : Width} {v : UInt16} (hw : r.status.accumulatorWidth = w)
    (h : r.status.Tells w v) : (r.setAccumulator v).Tells .accumulator w := by
  intro operand
  rw [Destination.value, status_setAccumulator, accumulator_setAccumulator, hw,
    Width.truncate_of_lt h.1]
  exact h

end Registers

namespace Effect

/-- What an effect puts at a destination is what Z and N tell of, whatever the registers and the
    operand were. -/
def Tells (mode : Mode) (d : Destination) : Effect → Prop
  | read size absorb | pull size absorb =>
      size = d.size ∧ ∀ (r : Registers) v, v.toNat < (size.width r.status).modulus →
        (absorb (size.width r.status) v r).Tells d (size.width r.status)
  | alter change =>
      d = (if mode = .accumulator then .accumulator else .memory) ∧
        ∀ w v r, (change w v r).2.Tells w (change w v r).1
  | adjust change => ∀ r, (change r).Tells d (d.size.width r.status)
  | _ => False

variable {r : Registers} {w : Width} {v : UInt16}

theorem loadAccumulator_tells (hw : r.status.accumulatorWidth = w) (h : v.toNat < w.modulus) :
    (loadAccumulator w v r).Tells .accumulator w :=
  Registers.setAccumulator_tells (r := { r with status := r.status.withResult w v }) hw
    (r.status.withResult_tells h)

/-- A calculation tells of its result, if it does not change the widths. -/
theorem calculate_tells {f : Status → Width → UInt16 → UInt16 → UInt16 × Status}
    (hwidths : ∀ s w a b, Status.SameWidths s (f s w a b).2)
    (hf : ∀ s w a b, (f s w a b).2.Tells w (f s w a b).1) (hw : r.status.accumulatorWidth = w) :
    (calculate f w v r).Tells .accumulator w :=
  Registers.setAccumulator_tells (r := { r with status := (f r.status w r.accumulator v).2 })
    ((hwidths r.status w r.accumulator v).accumulatorWidth_eq.trans hw)
    (hf r.status w r.accumulator v)

theorem loadX_tells (h : v.toNat < w.modulus) : (loadX w v r).Tells .x w :=
  fun _ => r.status.withResult_tells h

theorem loadY_tells (h : v.toNat < w.modulus) : (loadY w v r).Tells .y w :=
  fun _ => r.status.withResult_tells h

/-- Some transfers go to the accumulator as a word, whatever its width. -/
theorem toWholeAccumulator_tells : (toWholeAccumulator v r).Tells .wholeAccumulator .word :=
  fun _ => r.status.withResult_tells v.toNat_lt

/-- A byte in the data bank is what it was as an operand. -/
theorem loadDataBank_tells (h : v.toNat < Width.byte.modulus) :
    ({ r with dbr := lowByte v, status := r.status.withResult .byte v } : Registers).Tells
      .dataBank .byte := by
  intro operand
  show (r.status.withResult .byte v).Tells .byte (lowByte v).toUInt16
  rw [toUInt16_lowByte, Width.truncate_of_lt h]
  exact r.status.withResult_tells h

/-- The flags are set by the whole word, and tell of its low byte. -/
theorem exchangeBytes_tells (r : Registers) : (exchangeBytes r).Tells .lowAccumulator .byte := by
  intro operand
  show (r.status.withResult .byte _).Tells .byte (lowByte _).toUInt16
  rw [toUInt16_lowByte, ← Status.withResult_truncate]
  exact r.status.withResult_tells (Width.truncate_lt .byte _)

theorem toDirect_tells : (toDirect v r).Tells .direct .word :=
  fun _ => r.status.withResult_tells v.toNat_lt

end Effect

/-- Whatever came from the bus, the registers afterwards tell of the result. -/
theorem Effect.Tells.yields {e : Effect} {mode : Mode} {d : Destination} {n : UInt16}
    {r r' : Registers} (h : e.Tells mode d) (halter : ∀ change, e ≠ .alter change)
    (hr : e.Yields n r r') : r'.Tells d (d.size.width r.status) := by
  cases e with
  | read size absorb =>
      obtain ⟨rfl, htells⟩ := h
      obtain ⟨v, hv, rfl⟩ := hr
      exact (htells r v (Width.lt_modulus_of_fits hv)).skip n
  | pull size absorb =>
      obtain ⟨rfl, htells⟩ := h
      obtain ⟨s, v, hv, rfl⟩ := hr
      exact (htells (r.moveStack s) v (Width.lt_modulus_of_fits hv)).skip n
  | adjust change =>
      obtain rfl := hr
      exact (h r).skip n
  | alter change => exact absurd rfl (halter change)
  | _ => exact h.elim

open Effect in
/-- What the table of effects has for the instructions that have a result. -/
theorem Instruction.effect_tells {i : Instruction} {d : Destination} (h : i.destination = some d) :
    i.effect.Tells i.mode d := by
  obtain ⟨operation, mode, baseCycles⟩ := i
  -- One line for each family of operations: the width of its destination, and what is put there.
  cases operation with
  | lda | pla =>
      obtain rfl := Option.some.inj h
      exact ⟨rfl, fun r v hv => loadAccumulator_tells rfl hv⟩
  | and | ora | eor =>
      obtain rfl := Option.some.inj h
      exact ⟨rfl, fun r v hv => loadAccumulator_tells rfl (Width.truncate_lt _ _)⟩
  | adc =>
      obtain rfl := Option.some.inj h
      exact ⟨rfl, fun r v hv => calculate_tells Arithmetic.addWithCarry_sameWidths
        (fun _ _ _ _ => Arithmetic.addWithCarry_tells) rfl⟩
  | sbc =>
      obtain rfl := Option.some.inj h
      exact ⟨rfl, fun r v hv => calculate_tells Arithmetic.subtractWithBorrow_sameWidths
        (fun _ _ _ _ => Arithmetic.subtractWithBorrow_tells) rfl⟩
  | txa | tya =>
      obtain rfl := Option.some.inj h
      exact fun r => loadAccumulator_tells rfl (Width.truncate_lt _ _)
  | ldx | plx =>
      obtain rfl := Option.some.inj h
      exact ⟨rfl, fun r v hv => loadX_tells hv⟩
  | ldy | ply =>
      obtain rfl := Option.some.inj h
      exact ⟨rfl, fun r v hv => loadY_tells hv⟩
  | tax | tyx | tsx | inx | dex =>
      obtain rfl := Option.some.inj h
      exact fun r => loadX_tells (Width.truncate_lt _ _)
  | tay | txy | iny | dey =>
      obtain rfl := Option.some.inj h
      exact fun r => loadY_tells (Width.truncate_lt _ _)
  | tdc | tsc =>
      obtain rfl := Option.some.inj h
      exact fun r => toWholeAccumulator_tells
  | tcd =>
      obtain rfl := Option.some.inj h
      exact fun r => toDirect_tells
  | pld =>
      obtain rfl := Option.some.inj h
      exact ⟨rfl, fun r v hv => toDirect_tells⟩
  | plb =>
      obtain rfl := Option.some.inj h
      exact ⟨rfl, fun r v hv => loadDataBank_tells hv⟩
  | xba =>
      obtain rfl := Option.some.inj h
      exact fun r => exchangeBytes_tells r
  | asl | lsr | rol | ror | inc | dec =>
      obtain rfl := Option.some.inj h
      exact ⟨rfl, fun w v r => Status.withResult_tells _ (Width.truncate_lt _ _)⟩
  | _ => exact nomatch h

/-- Only what alters an operand has a result in memory. -/
theorem Instruction.alters_of_memory {i : Instruction} (h : i.destination = some .memory) :
    ∃ change, i.effect = .alter change := by
  obtain ⟨operation, mode, baseCycles⟩ := i
  cases operation with
  | asl | lsr | rol | ror | inc | dec => exact ⟨_, rfl⟩
  | _ => exact nomatch h

/-! ## Operands that are altered -/

namespace Memory

/-- What is at the place of a byte after it has been written. -/
theorem number_set (m : Memory) (a : Address) (v : UInt8) : (m.set a v).number [a] = v.toNat := by
  rw [number, List.map_singleton, get_set, if_pos rfl]
  rfl

/-- What is at the places of a word after it has been written, the low byte first. -/
theorem number_set_set (m : Memory) {a b : Address} (h : b ≠ a) (v : UInt16) :
    ((m.set a (lowByte v)).set b (highByte v)).number [a, b] = v.toNat := by
  rw [number, m.map_get_set_set h v]
  show (lowByte v).toNat + 0x100 * ((highByte v).toNat + 0) = v.toNat
  rw [toNat_lowByte, toNat_highByte]
  omega

end Memory

namespace Action

/-- Data that is written is found at the places of the operand. -/
theorem writeData_number {mode : Mode} {a : Address} (ha : mode.wrapsInBankZero = true → a.bank = 0)
    (w : Width) (v : UInt16) (m : Machine Memory) :
    ((writeData a mode w v).run m).2.bus.number (mode.operandPlaces a w) =
      (w.truncate v).toNat := by
  cases w with
  | byte =>
      rw [Width.toNat_truncate, Width.modulus, ← toNat_lowByte]
      exact m.bus.number_set a (lowByte v)
  | word =>
      obtain ⟨b, hne, hplaces, hrun⟩ := writeData_word ha v m
      rw [hplaces, hrun]
      exact m.bus.number_set_set hne v

variable {i : Instruction} {change : Width → UInt16 → Registers → UInt16 × Status}

/-- What is still to be done when an instruction ends is no matter of flags and memory. -/
theorem retire_after {B : Type} (p : Action B Unit) (i : Instruction) (r : Registers)
    (penalty : UInt64) (m : Machine B) :
    let after := ((p >>= fun _ => retire i r penalty).run m).2
    after.core.status = (p.run m).2.core.status ∧ after.bus = (p.run m).2.bus :=
  ⟨rfl, rfl⟩

/-- An operand in memory is what the flags were set by. -/
theorem execute_alter_memory (he : i.effect = .alter change) (hmode : i.mode ≠ .accumulator)
    (hchange : ∀ w v r, (change w v r).2.Tells w (change w v r).1) (m : Machine Memory) :
    let w := m.core.status.accumulatorWidth
    let places := i.mode.operandPlaces ((locate i.mode).run m).1.address w
    let after := ((execute i).run m).2
    after.core.status.Tells w (UInt16.ofNat (after.bus.number places)) := by
  intro w places after
  let operand := ((readData ((locate i.mode).run m).1.address i.mode w).run m).1
  let changed := change w operand m.core.toRegisters
  have htells : changed.2.Tells w changed.1 := hchange w operand m.core.toRegisters
  have hretired : after.core.status = ((alterOperand i.mode w (change w)).run m).2.core.status ∧
      after.bus = ((alterOperand i.mode w (change w)).run m).2.bus := by
    simp only [after]
    unfold execute
    rw [registers_looks.bind_run, he]
    simp only [if_neg hmode]
    exact retire_after _ _ _ _ m
  obtain ⟨hstatus, hbus⟩ := hretired
  rw [alterOperand_run hmode] at hstatus hbus
  have hflags : after.core.status = changed.2 :=
    hstatus.trans ((writeData_keeps (P := fun c => c.status = changed.2) _ _ _ _).run rfl)
  have hwritten : after.bus.number places = changed.1.toNat := by
    rw [hbus, ← Width.toNat_truncate_of_lt htells.1]
    exact writeData_number (fun h => bank_locate h m) w changed.1 _
  rw [hflags, hwritten, UInt16.ofNat_toNat]
  exact htells

theorem execute_alter_accumulator {B : Type} [Bus B] (he : i.effect = .alter change)
    (hmode : i.mode = .accumulator) (m : Machine B) :
    let r := m.core.toRegisters
    ((execute i).run m).2.core.toRegisters =
      (r.altered (change r.status.accumulatorWidth)).skip (i.size r.status) := by
  intro r
  unfold execute
  rw [he]
  simp only [alterOperand, if_pos hmode]
  rfl

end Action

/-! ## Steps -/

namespace Machine

/-- A result in the registers, on any bus. -/
theorem step_tells_registers {B : Type} [Bus B] {m : Machine B} {d : Destination}
    (h : m.core.decide m.irqLine = .instruction) (hd : m.fetched.destination = some d)
    (hregister : d ≠ .memory) :
    m.step.machine.core.toRegisters.Tells d (d.size.width m.core.status) := by
  have htells := Instruction.effect_tells hd
  by_cases halter : ∃ change, m.fetched.effect = .alter change
  · obtain ⟨change, he⟩ := halter
    rw [he] at htells
    obtain ⟨hplace, hchange⟩ := htells
    by_cases hmode : m.fetched.mode = .accumulator
    · obtain rfl : d = .accumulator := hplace.trans (if_pos hmode)
      have hwidths := m.fetched.effect_respects
      rw [he] at hwidths
      have hafter := Action.execute_alter_accumulator he hmode m.opened
      rw [step_eq_advance h, machine_account, machine_advance]
      show ((Action.execute m.fetched).run m.opened).2.core.toRegisters.Tells _ _
      rw [hafter]
      exact (Registers.setAccumulator_tells (hwidths _ _ _).accumulatorWidth_eq
        (hchange _ _ _)).skip _
    · exact absurd (hplace.trans (if_neg hmode)) hregister
  · obtain ⟨r, hr, hregisters, -⟩ := step_instruction h
    rw [hregisters]
    exact htells.yields (fun change he => halter ⟨change, he⟩) hr

/-- A result in memory. -/
theorem step_tells_memory {m : Machine Memory} (h : m.core.decide m.irqLine = .instruction)
    (hd : m.fetched.destination = some .memory) :
    let w := m.core.status.accumulatorWidth
    let places := m.fetched.mode.operandPlaces (m.effectiveAddress m.fetched.mode).result w
    m.step.machine.core.status.Tells w (UInt16.ofNat (m.step.machine.bus.number places)) := by
  intro w places
  obtain ⟨change, he⟩ := Instruction.alters_of_memory hd
  have heffect := Instruction.effect_tells hd
  rw [he] at heffect
  obtain ⟨hplace, hchange⟩ := heffect
  have hmode : m.fetched.mode ≠ .accumulator := by
    intro hmode
    rw [if_pos hmode] at hplace
    exact nomatch hplace
  obtain ⟨hmachine, -⟩ := step_instruction_run h
  have htells := Action.execute_alter_memory he hmode hchange { m with core := m.core.wake }
  rw [Action.locate_wake] at htells
  rw [hmachine]
  exact htells

end Machine

/-- After every instruction that has a result, Z tells whether what is now at its destination is
    zero, and N is its top bit. Both are meant at the width of the destination: that of the
    accumulator for the accumulator and for memory, that of the index registers for X and Y, a byte
    for the data bank and for exchanged bytes, and a word for the direct page and for transfers to
    all of the accumulator. A result in memory is at the effective address that the instruction had
    before the step. -/
theorem flags_describe_result {m : Machine Memory} {d : Destination}
    (h : m.core.decide m.irqLine = .instruction) (hd : m.fetched.destination = some d) :
    let w := d.size.width m.core.status
    let places := m.fetched.mode.operandPlaces (m.effectiveAddress m.fetched.mode).result w
    let after := m.step.machine
    let result := d.value after.core.toRegisters (UInt16.ofNat (after.bus.number places))
    result.toNat < w.modulus ∧ after.core.status.Describes w result := by
  intro w places after result
  by_cases hmemory : d = .memory
  · subst hmemory
    exact Machine.step_tells_memory h hd
  · exact Machine.step_tells_registers h hd hmemory _

/-- A word that lies over the end of bank 0 and is counted up to zero. -/
theorem wrapped_word_counted_to_zero :
    let memory := ((Memory.blank.load 0 [0xFF]).load 0x8000 [0xE6, 0x00]).load 0xFFFC
      [0x00, 0x80, 0x00, 0xFF]
    let m := (Machine.start memory .standard).machine
    let m := (m.perform (.setEmulation false)).machine
    let m := (m.perform (.setStatus 0x80)).machine
    let m := (m.perform (.setD 0xFFFF)).machine
    let after := m.step.machine
    m.core.decide m.irqLine = .instruction ∧ m.fetched.destination = some .memory ∧
      (m.effectiveAddress m.fetched.mode).result = ⟨0, 0xFFFF⟩ ∧
      after.bus.number [⟨0, 0xFFFF⟩, ⟨0, 0⟩] = 0 ∧
      after.core.status.zero = true ∧ after.core.status.negative = false := by
  intro memory m₀ m₁ m₂ m after
  have hstep : m.core.decide m.irqLine = .instruction := rfl
  have hfetched : m.fetched = ⟨.inc, .direct, 5⟩ := by decide +kernel
  have hdestination : m.fetched.destination = some .memory := by
    rw [hfetched]
    rfl
  -- The word lies at the end of bank 0 and goes on at its start.
  have hplace : (m.effectiveAddress m.fetched.mode).result = ⟨0, 0xFFFF⟩ := by decide +kernel
  have hnumber : after.bus.number [⟨0, 0xFFFF⟩, ⟨0, 0⟩] = 0 := by decide +kernel
  have hwidth : Destination.memory.size.width m.core.status = .word := rfl
  have hresult : (UInt16.ofNat (after.bus.number (m.fetched.mode.operandPlaces
      (m.effectiveAddress m.fetched.mode).result (Destination.memory.size.width m.core.status)))) =
        0 := by
    rw [hplace, hwidth, hfetched]
    exact congrArg UInt16.ofNat hnumber
  obtain ⟨-, hzero, hnegative⟩ := flags_describe_result hstep hdestination
  rw [Destination.value, hresult] at hzero hnegative
  refine ⟨hstep, hdestination, hplace, hnumber, ?_, ?_⟩
  · rw [hzero]
    rfl
  · rw [Bool.eq_false_iff, ne_eq, hnegative, hwidth]
    decide

end W65C816
