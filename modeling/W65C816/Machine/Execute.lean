import W65C816.Instruction.Effect
import W65C816.Machine.Operand

/-!
# Carrying out an instruction

`Action.execute` carries out the instruction whose opcode has just been read at the program address.

* Operands come first, then stack and memory, then registers. An instruction ends with
  `Action.retire`, which adds its cycles and moves on to the next one, unless it goes elsewhere.
* The length of an instruction and all penalties follow from the registers it starts with.
* `Action.enterInterrupt` saves the place to come back to and goes to a handler.
-/

namespace W65C816

namespace Action

variable {B : Type} [Bus B]

/-- Ends an instruction that the next one in memory follows. The registers are those it started
    with. -/
def retire (i : Instruction) (r : Registers) (penalty : UInt64) : Action B Unit := do
  charge (i.baseCycles.toUInt64 + penalty)
  changeRegisters fun now => { now with pc := now.pc + i.size r.status }

/-- One cycle if there is a reason for it. -/
def penaltyIf (reason : Bool) : UInt64 :=
  if reason then 1 else 0

/-! ## Interrupts -/

/-- The flags as an interrupt saves them. In emulation mode the break flag tells a break from all
    other interrupts. -/
def savedStatus (s : Status) (source : Interrupt) : UInt8 :=
  if s.emulation then
    if source = .brk then s.pack ||| 0x10 else s.pack &&& 0xEF
  else
    s.pack

/-- Saves the program address and the flags and goes to the handler of an interrupt. Emulation mode
    saves no program bank. -/
def enterInterrupt (source : Interrupt) (returnTo : UInt16) : Action B Unit := do
  let c ← core
  let emulation := c.status.emulation
  if !emulation then
    pushByte c.pbr
  pushWord returnTo
  pushByte (savedStatus c.status source)
  changeRegisters fun r =>
    { r with pbr := 0, status := { r.status with irqDisable := true, decimal := false } }
  -- The vector is read after the pushes, so a frame that lies over it counts.
  let handler ← readWordInBank ⟨0, c.vectors.location source emulation⟩
  goTo handler
  charge (if emulation then 7 else 8)

/-! ## Moving blocks -/

/-- Moves one byte of a block and counts it. -/
@[inline] def moveByte (direction : Direction) (source destination : UInt8) (cycles : UInt64) :
    Action B Unit := do
  let r ← registers
  let v ← read ⟨source, r.x⟩
  write ⟨destination, r.y⟩ v
  changeRegisters fun r =>
    { r with
      x := r.indexed (direction.next r.x)
      y := r.indexed (direction.next r.y)
      a := r.a - 1 }
  charge cycles

/-- Moves `n` bytes of a block. -/
def moveBytes (direction : Direction) (source destination : UInt8) (cycles : UInt64) :
    Nat → Action B Unit
  | 0 => pure ()
  | n + 1 => do
      moveByte direction source destination cycles
      moveBytes direction source destination cycles n

/-- Moves the block that X, Y and the accumulator describe. The accumulator holds the number of
    bytes less one. -/
def moveBlock (i : Instruction) (direction : Direction) : Action B Unit := do
  let r ← registers
  let destination ← read r.operandAddress
  let source ← read (r.programAddress.inBank 2)
  changeRegisters fun r => { r with dbr := destination }
  moveBytes direction source destination i.baseCycles.toUInt64 (r.a.toNat + 1)
  -- The whole block is one step, so the program counter moves on only now.
  changeRegisters fun now => { now with pc := now.pc + i.size r.status }

/-! ## All effects -/

/-- Goes to a target at the given distance from the next instruction, if the branch is taken. -/
def branch (i : Instruction) (taken : Bool) : Action B Unit := do
  let r ← registers
  let distance ← operandByte
  let next := r.pc + i.mode.size
  let target := next + distance.toInt8.toInt16.toUInt16
  if taken then
    charge (i.baseCycles.toUInt64 + 1 +
      penaltyIf (r.status.emulation && Address.onDifferentPages next target))
    goTo target
  else
    charge i.baseCycles.toUInt64
    goTo next

/-- Goes to an address, in the program bank or in its own. -/
def arrive (reach : Reach) (target : Address) : Action B Unit :=
  match reach with
  | .near => goTo target.offset
  | .far => changeRegisters fun r => { r with pbr := target.bank, pc := target.offset }

/-- Carries out the instruction at the program address. -/
def execute (i : Instruction) : Action B Unit := do
  let r ← registers
  let direct := r.directPenalty i.mode.usesDirectPage
  match i.effect with
  | .read size absorb =>
      let w := size.width r.status
      let (v, crossed) ← readOperand i.mode w
      changeRegisters (absorb w v)
      retire i r (size.extraCycles r.status + direct + penaltyIf crossed)
  | .write size value =>
      let place ← locate i.mode
      writeData place.address i.mode (size.width r.status) (value r)
      retire i r (size.extraCycles r.status + direct)
  | .alter change =>
      let size := OperandSize.accumulator
      let w := size.width r.status
      alterOperand i.mode w (change w)
      if i.mode = .accumulator then
        retire i r 0
      else
        retire i r (2 * size.extraCycles r.status + direct)
  | .adjust change =>
      changeRegisters change
      retire i r 0
  | .mask change =>
      let bits ← operandByte
      changeRegisters fun r => { r with status := change r.status bits }.narrowIndexes
      retire i r 0
  | .push size value =>
      push (size.width r.status) (value r)
      retire i r (size.extraCycles r.status)
  | .pull size absorb =>
      let w := size.width r.status
      let v ← pull w
      changeRegisters (absorb w v)
      retire i r (size.extraCycles r.status)
  | .pushOperand value =>
      let place ← locate i.mode
      let v ← readWordInBank place.address
      pushWord (value r v)
      retire i r direct
  | .branch taken =>
      branch i (taken r.status)
  | .branchLong =>
      let distance ← operandWord
      goTo (r.pc + i.mode.size + distance)
      charge i.baseCycles.toUInt64
  | .jump reach =>
      let place ← locate i.mode
      arrive reach place.address
      charge i.baseCycles.toUInt64
  | .call reach =>
      let place ← locate i.mode
      if reach = .far then
        pushByte r.pbr
      -- What is saved is the address of the last byte of the call.
      pushWord (r.pc + i.mode.size - 1)
      arrive reach place.address
      charge i.baseCycles.toUInt64
  | .finishCall reach =>
      let offset ← pullWord
      let bank ← match reach with
        | .near => pure r.pbr
        | .far => pullByte
      arrive reach ⟨bank, offset + 1⟩
      charge i.baseCycles.toUInt64
  | .finishInterrupt =>
      let bits ← pullByte
      changeRegisters (Effect.pullStatus bits)
      let offset ← pullWord
      -- Flags that are pulled do not change the mode, so it may be asked of the registers from
      -- before.
      if r.status.emulation then
        goTo offset
        charge i.baseCycles.toUInt64
      else
        let bank ← pullByte
        arrive .far ⟨bank, offset⟩
        charge (i.baseCycles.toUInt64 + 1)
  | .interrupt source =>
      enterInterrupt source (r.pc + i.mode.size)
  | .moveBlock direction =>
      moveBlock i direction
  | .wait =>
      changeCore fun c => { c with waiting := true }
      retire i r 0
  | .stop =>
      changeCore fun c => { c with stopped := true }
      retire i r 0

end Action

end W65C816
