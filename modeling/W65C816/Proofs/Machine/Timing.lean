import W65C816.Proofs.Machine.Addressing
import W65C816.Proofs.Machine.Reading

/-!
# How long a step takes

The cycles of every instruction on flat memory, told in numbers: what an instruction takes more than
its base cycles, by its operation, its mode, the registers and the bytes in memory. Where
`Effect.Costs` leaves a page crossing open, the bytes decide.

* `Machine.surcharge` is this description. It goes through the operations and says for each of them
  which penalties apply. `Effect.cycles` is the same for effects.
* `Mode.leavesPage` is the crossing of an index, and `Machine.crossed_locate` says that it is the
  one that the processor notices; `Machine.branchLeavesPage` is that of a branch.
* `Machine.toNat_result` gives the cycles of a step by effects, and `Instruction.cycles_effect` goes
  from there to operations.
* `step_cycles` is what follows.
-/

namespace W65C816

/-! ## The cycles in numbers -/

/-- One for a word, which takes one cycle more than a byte. -/
def Width.surplus : Width → Nat
  | byte => 0
  | word => 1

/-- One for an operand that is a word because a register is wide. -/
def OperandSize.surplus (size : OperandSize) (s : Status) : Nat :=
  match size with
  | accumulator => s.accumulatorWidth.surplus
  | index => s.indexWidth.surplus
  | byte | word => 0

/-- Two offsets have different high bytes. -/
def Address.pagesDiffer (p q : Nat) : Bool :=
  p / 0x100 != q / 0x100

/-- The index takes the offset of the base to another page, in a mode where this costs a cycle. -/
def Mode.leavesPage (mode : Mode) (r : Registers) (operand pointer : Nat) : Bool :=
  match mode with
  | absoluteX => Address.pagesDiffer operand ((operand + r.x.toNat) % 0x10000)
  | absoluteY => Address.pagesDiffer operand ((operand + r.y.toNat) % 0x10000)
  | directIndirectIndexed => Address.pagesDiffer pointer ((pointer + r.y.toNat) % 0x10000)
  | _ => false

/-- The cycle that a mode takes more when the direct page is not aligned, in native mode. It is paid
    in the modes that find their operand, or a pointer to it, on the direct page. -/
def Mode.misalignment (mode : Mode) (r : Registers) : Nat :=
  if r.status.emulation = false ∧
      mode ∈ [direct, directX, directY, directIndirect, directIndirectLong, directIndexedIndirect,
        directIndirectIndexed, directIndirectLongIndexed, stackDirectIndirect] ∧
      r.d.toNat % 0x100 ≠ 0 then 1 else 0

/-- The flags let a short branch be taken. -/
def Operation.taken (s : Status) : Operation → Bool
  | bcc => !s.carry
  | bcs => s.carry
  | bne => !s.zero
  | beq => s.zero
  | bpl => !s.negative
  | bmi => s.negative
  | bvc => !s.overflow
  | bvs => s.overflow
  | bra => true
  | _ => false

namespace Machine

/-- The index takes the current instruction to another page, taken in some mode. -/
def leavesPage (m : Machine Memory) (mode : Mode) : Bool :=
  let r := m.core.toRegisters
  let operand := m.bus.number (r.operandPlaces mode.operandCount)
  mode.leavesPage r operand (m.bus.number (mode.pointerPlaces r operand))

/-- A short branch goes to another page than that of the next instruction. The distance is a byte
    whose top bit is a sign. -/
def branchLeavesPage (m : Machine Memory) : Bool :=
  let next := (m.core.pc.toNat + 2) % 0x10000
  let distance := m.bus.number (m.core.toRegisters.operandPlaces 1)
  let target := (next + distance + if distance < 0x80 then 0 else 0xFF00) % 0x10000
  Address.pagesDiffer next target

/-- The cycles that the current instruction takes more than its base cycles. -/
def surcharge (m : Machine Memory) (i : Instruction) : Nat :=
  let r := m.core.toRegisters
  let s := r.status
  match i.operation with
  | .lda | .adc | .sbc | .and | .ora | .eor | .cmp | .bit =>
      s.accumulatorWidth.surplus + i.mode.misalignment r + (m.leavesPage i.mode).toNat
  | .ldx | .ldy | .cpx | .cpy =>
      s.indexWidth.surplus + i.mode.misalignment r + (m.leavesPage i.mode).toNat
  | .sta | .stz => s.accumulatorWidth.surplus + i.mode.misalignment r
  | .stx | .sty => s.indexWidth.surplus + i.mode.misalignment r
  | .tsb | .trb | .asl | .lsr | .rol | .ror | .inc | .dec =>
      if i.mode = .accumulator then 0
      else 2 * s.accumulatorWidth.surplus + i.mode.misalignment r
  | .pha | .pla => s.accumulatorWidth.surplus
  | .phx | .phy | .plx | .ply => s.indexWidth.surplus
  | .pei => i.mode.misalignment r
  | .bcc | .bcs | .bne | .beq | .bpl | .bmi | .bvc | .bvs | .bra =>
      if i.operation.taken s then 1 + (s.emulation && m.branchLeavesPage).toNat else 0
  | .brk | .cop | .rti => (!s.emulation).toNat
  | .mvn | .mvp => 7 * r.a.toNat
  | _ => 0

end Machine

/-- The cycles of an instruction by its effect. -/
def Effect.cycles (m : Machine Memory) (i : Instruction) : Effect → Nat
  | read size _ => i.baseCycles.toNat + (size.surplus m.core.status +
      i.mode.misalignment m.core.toRegisters + (m.leavesPage i.mode).toNat)
  | write size _ => i.baseCycles.toNat +
      (size.surplus m.core.status + i.mode.misalignment m.core.toRegisters)
  | alter _ => i.baseCycles.toNat + if i.mode = .accumulator then 0 else
      2 * m.core.status.accumulatorWidth.surplus + i.mode.misalignment m.core.toRegisters
  | push size _ | pull size _ => i.baseCycles.toNat + size.surplus m.core.status
  | pushOperand _ => i.baseCycles.toNat + i.mode.misalignment m.core.toRegisters
  | branch taken => i.baseCycles.toNat + if taken m.core.status then
      1 + (m.core.status.emulation && m.branchLeavesPage).toNat else 0
  | finishInterrupt => i.baseCycles.toNat + (!m.core.status.emulation).toNat
  | interrupt _ => 7 + (!m.core.status.emulation).toNat
  | moveBlock _ => i.baseCycles.toNat * (m.core.a.toNat + 1)
  | adjust _ | mask _ | branchLong | jump _ | call _ | finishCall _ | wait | stop =>
      i.baseCycles.toNat

/-! ## Pages -/

theorem Address.onDifferentPages_eq (p q : UInt16) :
    onDifferentPages p q = pagesDiffer p.toNat q.toNat := by
  have hpage : ∀ v : UInt16, (v / 0x100).toNat = v.toNat / 0x100 :=
    fun v => UInt16.toNat_div v 0x100
  rw [Bool.eq_iff_iff, onDifferentPages, pagesDiffer, bne_iff_ne, bne_iff_ne, ne_eq, ne_eq,
    ← UInt16.toNat_inj, hpage, hpage]

/-- An index takes an operand to another page as it does in numbers, where the sum wraps in 16 bits.
    -/
theorem Located.crossed_after (bank : UInt8) {n : Nat} (h : n < 0x10000) (index : UInt16) :
    (after ⟨bank, UInt16.ofNat n⟩ index).crossed =
      Address.pagesDiffer n ((n + index.toNat) % 0x10000) := by
  have hn : (UInt16.ofNat n).toNat = n := by
    rw [UInt16.toNat_ofNat']
    exact Nat.mod_eq_of_lt h
  refine (Address.onDifferentPages_eq _ _).trans ?_
  rw [UInt16.toNat_add, hn]

namespace Machine

/-- An action that only reads gives on flat memory what it gives when it is recorded. -/
theorem locate_of_gets {m : Machine Memory} {mode : Mode} {l : List Address} {place : Located}
    (h : Action.Gets m.core.toRegisters m.bus l place (Action.locate mode)) :
    ((Action.locate mode).run m).1 = place := by
  have htwins : Twins (fun (m : Memory) (b : Recorded Memory) => b.bus = m) m m.recorded :=
    ⟨rfl, rfl⟩
  have hagree := (Action.locate_agree Recorded.memory_simulation mode).run htwins
  exact hagree.1.trans (congrArg Prod.fst (h.run m.recorded rfl rfl))

/-- Finding the place of an operand tells whether its index leaves the page. -/
theorem crossed_locate (m : Machine Memory) (mode : Mode) :
    ((Action.locate mode).run m).1.crossed = m.leavesPage mode := by
  have hword : m.bus.number (m.core.toRegisters.operandPlaces 2) < 0x10000 := by
    rw [Registers.operandPlaces_eq]
    exact m.bus.number_placesInBank_lt _ _ 2
  have hbyte : m.bus.number (m.core.toRegisters.operandPlaces 1) < 0x100 := by
    rw [Registers.operandPlaces_eq]
    exact m.bus.number_placesInBank_lt _ _ 1
  cases mode with
  | absoluteX =>
      have hgets : Action.Gets m.core.toRegisters m.bus _ _ (Action.locate .absoluteX) :=
        .ofRegisters (Action.operandWord_gets.andThen
          fun v => Located.after ⟨m.core.dbr, v⟩ m.core.x)
      rw [locate_of_gets hgets]
      exact Located.crossed_after _ hword _
  | absoluteY =>
      have hgets : Action.Gets m.core.toRegisters m.bus _ _ (Action.locate .absoluteY) :=
        .ofRegisters (Action.operandWord_gets.andThen
          fun v => Located.after ⟨m.core.dbr, v⟩ m.core.y)
      rw [locate_of_gets hgets]
      exact Located.crossed_after _ hword _
  | directIndirectIndexed =>
      have hgets : Action.Gets m.core.toRegisters m.bus _ _
          (Action.locate .directIndirectIndexed) :=
        .ofRegisters (Action.operandByte_gets.bind ((Action.directPointer_gets hbyte 0).andThen
          fun v => Located.after ⟨m.core.dbr, v⟩ m.core.y))
      rw [locate_of_gets hgets]
      exact Located.crossed_after _ (m.bus.number_directPointerPlaces_lt _ _) _
  | _ => rfl

/-- Asking for a page crossing is answered by the same bytes. -/
theorem crossesPage_eq (m : Machine Memory) (mode : Mode) :
    (m.crossesPage mode).result = m.leavesPage mode := by
  rw [← crossed_locate]
  cases mode with
  | _ => rfl

end Machine

/-! ## Penalties -/

theorem OperandSize.toNat_extraCycles (size : OperandSize) (s : Status) :
    (size.extraCycles s).toNat = size.surplus s := by
  cases size with
  | byte | word => rfl
  | accumulator =>
      cases hw : s.accumulatorWidth with
      | byte | word => simp [extraCycles, width, surplus, hw, Width.surplus]
  | index =>
      cases hw : s.indexWidth with
      | byte | word => simp [extraCycles, width, surplus, hw, Width.surplus]

/-- The modes that the processor takes to use the direct page are those that pay for it. -/
theorem Mode.usesDirectPage_iff (mode : Mode) :
    mode.usesDirectPage = true ↔
      mode ∈ [direct, directX, directY, directIndirect, directIndirectLong, directIndexedIndirect,
        directIndirectIndexed, directIndirectLongIndexed, stackDirectIndirect] := by
  cases mode with
  | direct | directX | directY | directIndirect | directIndirectLong | directIndexedIndirect
  | directIndirectIndexed | directIndirectLongIndexed | stackDirectIndirect =>
      exact ⟨fun _ => by decide, fun _ => rfl⟩
  | _ => exact ⟨nofun, fun h => absurd h (by decide)⟩

/-- The penalty that the processor adds for the direct page, as a number. -/
theorem Registers.toNat_directPenalty (r : Registers) (mode : Mode) :
    (r.directPenalty mode.usesDirectPage).toNat = mode.misalignment r := by
  have hlow : (lowByte r.d != 0) = true ↔ r.d.toNat % 0x100 ≠ 0 := by
    rw [bne_iff_ne, ne_eq, ← UInt8.toNat_inj, toNat_lowByte]
    exact Iff.rfl
  rw [directPenalty, Mode.misalignment, apply_ite UInt64.toNat]
  refine if_congr ?_ rfl rfl
  rw [Bool.and_eq_true, Bool.and_eq_true, Bool.not_eq_true', hlow, mode.usesDirectPage_iff,
    and_assoc]

theorem Action.toNat_penaltyIf (reason : Bool) : (penaltyIf reason).toNat = reason.toNat := by
  cases reason with
  | false => rfl
  | true => rfl

/-- A distance is as far as its byte says, and goes back when the top bit is set. -/
theorem toNat_distance (v : UInt8) :
    v.toInt8.toInt16.toUInt16.toNat = v.toNat + if v.toNat < 0x80 then 0 else 0xFF00 := by
  have hlt := v.toNat_lt
  have hextend : v.toInt8.toInt16.toUInt16.toNat = (v.toBitVec.signExtend 16).toNat := rfl
  rw [hextend, BitVec.toNat_signExtend, BitVec.toNat_setWidth, BitVec.msb_eq_decide,
    UInt8.toNat_toBitVec, Nat.mod_eq_of_lt (by omega)]
  by_cases hlow : v.toNat < 0x80
  · rw [if_pos hlow, if_neg (by simpa using hlow)]
  · rw [if_neg hlow, if_pos (by simpa using hlow)]

namespace Machine

/-! ## Steps -/

section

variable {B : Type} [Bus B] {m : Machine B}

/-- The result of a step is what the count of cycles has grown by. -/
theorem result_of_cycles {n : UInt64} (h : m.step.machine.core.cycles = m.core.cycles + n) :
    m.step.result = n := by
  rw [step_spends] at h
  exact (UInt64.add_right_inj _).mp h

/-- A step costs what the effect of its instruction costs. -/
theorem costs_result (h : m.core.decide m.irqLine = .instruction) :
    m.fetched.effect.Costs m.fetched m.core.toRegisters m.step.result := by
  obtain ⟨n, hn, hcycles⟩ := cycles_instruction h
  rw [result_of_cycles hcycles]
  exact hn

end

end Machine

theorem Instruction.mode_of_branch {i : Instruction} (hi : i ∈ table.toList)
    {taken : Status → Bool} (he : i.effect = .branch taken) : i.mode = .relative := by
  -- The table gives the mode of all operations but three, and none of these branches.
  have hother : i.operation ∉ [.brk, .cop, .wdm] := by
    intro hmem
    simp only [List.mem_cons, List.not_mem_nil, or_false] at hmem
    rw [effect] at he
    rcases hmem with hop | hop | hop
    all_goals
      rw [hop] at he
      cases he
  have hfetches := fetches_of_mem i hi hother
  rw [fetches, he] at hfetches
  simpa using hfetches

/-- The penalties of a branch are known from the byte after the opcode. -/
theorem Action.cycles_branch {B : Type} [Bus B] {i : Instruction} {taken : Status → Bool}
    (he : i.effect = .branch taken) (m : Machine B) :
    let r := m.core.toRegisters
    let next := r.pc + i.mode.size
    let target := next + (Bus.read m.bus r.operandAddress).1.toInt8.toInt16.toUInt16
    ((execute i).run m).2.core.cycles = m.core.cycles +
      if taken r.status then i.baseCycles.toUInt64 + 1 +
        penaltyIf (r.status.emulation && Address.onDifferentPages next target)
      else i.baseCycles.toUInt64 := by
  intro r next target
  unfold execute
  rw [he]
  change ((branch i (taken r.status)).run m).2.core.cycles = _
  cases taken r.status with
  | true => rfl
  | false => rfl

namespace Machine

variable {m : Machine Memory}

/-- Base cycles and penalties are small, so their sum is that of numbers. -/
theorem toNat_base_add (base : UInt8) {penalty : UInt64} (h : penalty.toNat < 0x100) :
    (base.toUInt64 + penalty).toNat = base.toNat + penalty.toNat := by
  have hbase := base.toNat_lt
  rw [UInt64.toNat_add, UInt8.toNat_toUInt64]
  omega

/-- The penalties of an operand in memory, apart from page crossings. -/
theorem toNat_placement (size : OperandSize) (r : Registers) (mode : Mode) :
    (size.extraCycles r.status + r.directPenalty mode.usesDirectPage).toNat =
        size.surplus r.status + mode.misalignment r ∧
      size.surplus r.status + mode.misalignment r ≤ 2 := by
  have hsize_le := size.extraCycles_le r.status
  have hdirect_le := r.directPenalty_le mode.usesDirectPage
  have hmode_le := mode.usesDirectPage.toNat_le
  rw [← size.toNat_extraCycles, ← r.toNat_directPenalty, UInt64.toNat_add]
  omega

/-- A reading pays for the page crossing that comes of finding the operand. -/
theorem toNat_result_reading {size : OperandSize} {absorb : Width → UInt16 → Registers → Registers}
    (h : m.core.decide m.irqLine = .instruction) (he : m.fetched.effect = .read size absorb) :
    m.step.result.toNat = (Effect.read size absorb).cycles m m.fetched := by
  -- The crossing that is charged is the one that was found when the operand was located.
  have hcrossed : (m.operand (size.width m.core.status)).2 = m.leavesPage m.fetched.mode :=
    (Action.crossed_readOperand _ _ m.opened).trans (crossed_locate m.opened _)
  have hcrossing := Action.toNat_penaltyIf (m.leavesPage m.fetched.mode)
  have hcrossing_le := (m.leavesPage m.fetched.mode).toNat_le
  obtain ⟨hplacement, hplacement_le⟩ := toNat_placement size m.core.toRegisters m.fetched.mode
  have hpenalty : (size.extraCycles m.core.status +
      m.core.directPenalty m.fetched.mode.usesDirectPage +
        Action.penaltyIf (m.leavesPage m.fetched.mode)).toNat =
      size.surplus m.core.status + m.fetched.mode.misalignment m.core.toRegisters +
        (m.leavesPage m.fetched.mode).toNat := by
    rw [UInt64.toNat_add, hplacement, hcrossing]
    omega
  rw [result_of_cycles (step_reading h he).2, hcrossed, toNat_base_add _ (by omega), hpenalty]
  rfl

/-- The processor asks for the pages of the next instruction and of the target, which are the words
    of `branchLeavesPage`. -/
theorem onDifferentPages_branch (m : Machine Memory) :
    Address.onDifferentPages (m.core.pc + 2) (m.core.pc + 2 +
      (m.bus.get m.core.operandAddress).toInt8.toInt16.toUInt16) = m.branchLeavesPage := by
  have hnext : (m.core.pc + 2).toNat = (m.core.pc.toNat + 2) % 0x10000 :=
    UInt16.toNat_add m.core.pc 2
  have hdistance : m.bus.number (m.core.toRegisters.operandPlaces 1) =
      (m.bus.get m.core.operandAddress).toNat := rfl
  rw [Address.onDifferentPages_eq, branchLeavesPage, UInt16.toNat_add (m.core.pc + 2), hnext,
    toNat_distance, hdistance, ← Nat.add_assoc]

/-- A branch pays for being taken and for the page it leaves. -/
theorem toNat_result_branching {taken : Status → Bool}
    (h : m.core.decide m.irqLine = .instruction) (he : m.fetched.effect = .branch taken) :
    m.step.result.toNat = (Effect.branch taken).cycles m m.fetched := by
  have hmode : m.fetched.mode = .relative :=
    Instruction.mode_of_branch (Instruction.ofOpcode_mem _) he
  have hcycles := Action.cycles_branch he m.opened
  rw [hmode] at hcycles
  have hbranch : m.step.result = if taken m.core.status then m.fetched.baseCycles.toUInt64 + 1 +
      Action.penaltyIf (m.core.status.emulation && m.branchLeavesPage)
      else m.fetched.baseCycles.toUInt64 := by
    apply result_of_cycles
    rw [step_eq_advance h, machine_account, machine_advance, ← onDifferentPages_branch]
    exact hcycles
  have hreason := Action.toNat_penaltyIf (m.core.status.emulation && m.branchLeavesPage)
  have hreason_le := (m.core.status.emulation && m.branchLeavesPage).toNat_le
  -- A branch that is taken costs one more, and one more again on another page in emulation mode.
  rw [hbranch, Effect.cycles]
  cases taken m.core.status with
  | false => exact UInt8.toNat_toUInt64 _
  | true =>
      rw [if_pos rfl, if_pos rfl, UInt64.add_assoc, toNat_base_add]
      · rw [UInt64.toNat_add, hreason, UInt64.toNat_one]
        omega
      · rw [UInt64.toNat_add, hreason, UInt64.toNat_one]
        omega

/-- The cycles of a step are those of the effect of its instruction. -/
theorem toNat_result (h : m.core.decide m.irqLine = .instruction) :
    m.step.result.toNat = m.fetched.effect.cycles m m.fetched := by
  have hcosts := costs_result h
  -- One case for each effect. Readings and branches depend on bytes in memory, and all others on
  -- registers only.
  cases he : m.fetched.effect with
  | read size absorb => exact toNat_result_reading h he
  | branch taken => exact toNat_result_branching h he
  | write size value =>
      obtain ⟨hplacement, hplacement_le⟩ := toNat_placement size m.core.toRegisters m.fetched.mode
      rw [he] at hcosts
      rw [show m.step.result = _ from hcosts, toNat_base_add _ (by omega), hplacement]
      rfl
  | alter change =>
      rw [he] at hcosts
      rw [show m.step.result = _ from hcosts, Effect.cycles]
      by_cases hmode : m.fetched.mode = .accumulator
      · rw [if_pos hmode, if_pos hmode]
        exact toNat_base_add _ (by decide)
      · have hsize := OperandSize.accumulator.toNat_extraCycles m.core.status
        have hdirect := m.core.toRegisters.toNat_directPenalty m.fetched.mode
        obtain ⟨-, hplacement_le⟩ := toNat_placement .accumulator m.core.toRegisters m.fetched.mode
        have hpenalty : (2 * OperandSize.accumulator.extraCycles m.core.status +
            m.core.directPenalty m.fetched.mode.usesDirectPage).toNat =
            2 * OperandSize.accumulator.surplus m.core.status +
              m.fetched.mode.misalignment m.core.toRegisters := by
          have htwo : (2 : UInt64).toNat = 2 := rfl
          rw [UInt64.toNat_add, UInt64.toNat_mul, hsize, hdirect, htwo]
          omega
        rw [if_neg hmode, if_neg hmode, toNat_base_add _ (by omega), hpenalty]
        rfl
  | push size value | pull size absorb =>
      have hsize_le := size.extraCycles_le m.core.status
      rw [he] at hcosts
      rw [show m.step.result = _ from hcosts, toNat_base_add _ (by omega), size.toNat_extraCycles]
      rfl
  | pushOperand value =>
      have hdirect := m.core.toRegisters.toNat_directPenalty m.fetched.mode
      have hdirect_le := m.core.toRegisters.directPenalty_le m.fetched.mode.usesDirectPage
      have hmode_le := m.fetched.mode.usesDirectPage.toNat_le
      rw [he] at hcosts
      rw [show m.step.result = _ from hcosts, toNat_base_add _ (by omega), hdirect]
      rfl
  | finishInterrupt =>
      rw [he] at hcosts
      rw [show m.step.result = _ from hcosts, Effect.cycles]
      cases m.core.status.emulation with
      | true => exact toNat_base_add _ (by decide)
      | false => exact toNat_base_add _ (by decide)
  | interrupt source =>
      rw [he] at hcosts
      rw [show m.step.result = _ from hcosts, Effect.cycles, Action.entryCycles]
      cases m.core.status.emulation with
      | true => rfl
      | false => rfl
  | moveBlock direction =>
      have hcount : (UInt64.ofNat (m.core.a.toNat + 1)).toNat = m.core.a.toNat + 1 := by
        have ha := m.core.a.toNat_lt
        rw [UInt64.toNat_ofNat']
        omega
      -- The longest block has 0x10000 bytes, so the product is far from the end of the count.
      have hproduct : (m.core.a.toNat + 1) * m.fetched.baseCycles.toNat < 0x10001 * 0x100 :=
        Nat.mul_lt_mul'' (Nat.succ_lt_succ m.core.a.toNat_lt) m.fetched.baseCycles.toNat_lt
      rw [he] at hcosts
      rw [show m.step.result = _ from hcosts, Effect.cycles, UInt64.toNat_mul, hcount,
        UInt8.toNat_toUInt64, Nat.mul_comm m.fetched.baseCycles.toNat]
      exact Nat.mod_eq_of_lt (Nat.lt_trans hproduct (by decide))
  | adjust change | mask change | branchLong | jump reach | call reach | finishCall reach | wait
  | stop =>
      rw [he] at hcosts
      rw [show m.step.result = _ from hcosts]
      exact UInt8.toNat_toUInt64 _

end Machine

namespace Instruction

/-- The operations that interrupt the program have the cycles of an interrupt in emulation mode. -/
theorem baseCycles_of_break :
    ∀ i ∈ table.toList, i.operation ∈ [.brk, .cop] → i.baseCycles = 7 := by
  decide +kernel

/-- An operation that pushes a constant has one mode only, which is not on the direct page. -/
theorem mode_of_constant :
    ∀ i ∈ table.toList, i.operation ∈ [.pea, .per] →
      i.mode ∈ [.stackAbsolute, .stackProgramCounterRelative] := by
  decide +kernel

/-- The cycles by effect are those by operation. -/
theorem cycles_effect (m : Machine Memory) {i : Instruction} (hi : i ∈ table.toList) :
    i.effect.cycles m i = i.baseCycles.toNat + m.surcharge i := by
  have hblock := baseCycles_of_movesBlock i hi
  have hbreak := baseCycles_of_break i hi
  have hconstant := mode_of_constant i hi
  obtain ⟨operation, mode, baseCycles⟩ := i
  -- Most operations have the same words in both descriptions. Those left have base cycles or a mode
  -- that the table has to supply.
  cases operation with
  | brk | cop =>
      obtain rfl : baseCycles = 7 := hbreak (by simp)
      rfl
  | mvn =>
      obtain rfl : baseCycles = 7 := hblock (.inl rfl)
      exact Nat.mul_add_one 7 _ |>.trans (Nat.add_comm _ _)
  | mvp =>
      obtain rfl : baseCycles = 7 := hblock (.inr rfl)
      exact Nat.mul_add_one 7 _ |>.trans (Nat.add_comm _ _)
  | pea | per =>
      have hmode : mode ∈ [Mode.stackAbsolute, .stackProgramCounterRelative] := hconstant (by simp)
      have hmisalignment : mode.misalignment m.core.toRegisters = 0 := by
        refine if_neg ?_
        rintro ⟨-, hdirect, -⟩
        simp only [List.mem_cons, List.not_mem_nil, or_false] at hmode
        rcases hmode with rfl | rfl
        · exact absurd hdirect (by decide)
        · exact absurd hdirect (by decide)
      exact congrArg (baseCycles.toNat + ·) hmisalignment
  | _ => rfl

end Instruction

/-- What a step takes that carries out an instruction, on flat memory and from any state.

    * It is the base cycles of the instruction and its `Machine.surcharge`, and the count of cycles
      grows by as much.
    * `Machine.crossesPage` tells of the same page crossings as are paid for. -/
theorem step_cycles (m : Machine Memory) (h : m.core.decide m.irqLine = .instruction) :
    m.step.result.toNat = m.fetched.baseCycles.toNat + m.surcharge m.fetched ∧
      m.step.machine.core.cycles = m.core.cycles + m.step.result ∧
      ∀ mode, (m.crossesPage mode).result = m.leavesPage mode := by
  refine ⟨?_, m.step_spends, m.crossesPage_eq⟩
  rw [Machine.toNat_result h]
  exact Instruction.cycles_effect m (Instruction.ofOpcode_mem _)

/-- A load of a word, through a pointer on a direct page that is not aligned, to another page. -/
theorem slowest_load_cycles :
    let memory := (Memory.blank.load 0 [0xC2, 0x20, 0xB1, 0xFF]).load 0x100 [0xF8, 0x12]
    let m := (Machine.start memory .standard).machine
    let m := (m.perform (.setEmulation false)).machine
    let m := ((m.perform (.setD 1)).machine.perform (.setY 0x10)).machine.step.machine
    m.core.decide m.irqLine = .instruction ∧ m.fetched = ⟨.lda, .directIndirectIndexed, 5⟩ ∧
      m.step.result.toNat = 8 ∧ (m.crossesPage .directIndirectIndexed).result = true := by
  intro memory m₀ m₁ m
  have hstep : m.core.decide m.irqLine = .instruction := by decide +kernel
  have hfetched : m.fetched = ⟨.lda, .directIndirectIndexed, 5⟩ := by decide +kernel
  have hsurcharge : m.surcharge ⟨.lda, .directIndirectIndexed, 5⟩ = 3 := by decide +kernel
  have hleaves : m.leavesPage .directIndirectIndexed = true := by decide +kernel
  obtain ⟨hresult, -, hcrosses⟩ := step_cycles m hstep
  rw [hfetched, hsurcharge] at hresult
  exact ⟨hstep, hfetched, hresult, (hcrosses _).trans hleaves⟩

end W65C816
