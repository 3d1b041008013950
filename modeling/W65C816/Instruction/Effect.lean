import W65C816.Arithmetic
import W65C816.Instruction.Table
import W65C816.Registers
import W65C816.Vectors

/-!
# Effects

The *effect* of an instruction is what it does with its operand, told apart from how the operand is
found and how the bus carries it. There are far fewer kinds of effects than operations: an
instruction reads an operand, writes one, alters one in place, changes registers, moves something to
or from the stack, or goes somewhere else.

Where an effect changes registers, the change is a function on `Registers`. So the instruction set
comes in two parts: this table of functions, and the machine that carries effects out.
-/

namespace W65C816

/-- Which way the addresses of a block move go. -/
inductive Direction where
  | up
  | down
  deriving DecidableEq, Repr

/-- The neighbour of an offset in a direction. -/
@[inline] def Direction.next : Direction → UInt16 → UInt16
  | up, v => v + 1
  | down, v => v - 1

/-- Whether a jump stays in the program bank. -/
inductive Reach where
  | near
  | far
  deriving DecidableEq, Repr

/-- What an instruction does with its operand. -/
inductive Effect where
  /-- Reads an operand into the registers. -/
  | read (size : OperandSize) (absorb : Width → UInt16 → Registers → Registers)
  /-- Writes an operand from the registers. -/
  | write (size : OperandSize) (value : Registers → UInt16)
  /-- Alters an operand as wide as the accumulator in place, and some flags with it. -/
  | alter (change : Width → UInt16 → Registers → UInt16 × Status)
  /-- Changes registers. -/
  | adjust (change : Registers → Registers)
  /-- Changes flags by a mask that follows the opcode. -/
  | mask (change : Status → UInt8 → Status)
  /-- Pushes a register. -/
  | push (size : OperandSize) (value : Registers → UInt16)
  /-- Pulls into a register. -/
  | pull (size : OperandSize) (absorb : Width → UInt16 → Registers → Registers)
  /-- Pushes a word made of the word at the effective address. -/
  | pushOperand (value : Registers → UInt16 → UInt16)
  /-- Goes to a near target if the flags say so. -/
  | branch (taken : Status → Bool)
  /-- Goes to a target anywhere in the bank. -/
  | branchLong
  | jump (reach : Reach)
  | call (reach : Reach)
  | finishCall (reach : Reach)
  | finishInterrupt
  /-- Interrupts the program on its own wish. -/
  | interrupt (source : Interrupt)
  | moveBlock (direction : Direction)
  /-- Waits for an interrupt. -/
  | wait
  /-- Stops for good. -/
  | stop

namespace Effect

/-! ## Functions on registers -/

/-- Loads the accumulator. -/
def loadAccumulator (w : Width) (v : UInt16) (r : Registers) : Registers :=
  { r with status := r.status.withResult w v }.setAccumulator v

/-- Loads X. -/
def loadX (w : Width) (v : UInt16) (r : Registers) : Registers :=
  { r with x := v, status := r.status.withResult w v }

/-- Loads Y. -/
def loadY (w : Width) (v : UInt16) (r : Registers) : Registers :=
  { r with y := v, status := r.status.withResult w v }

/-- Combines accumulator and operand bit by bit. -/
def combine (f : UInt16 → UInt16 → UInt16) (w : Width) (v : UInt16) (r : Registers) : Registers :=
  loadAccumulator w (w.truncate (f r.accumulator v)) r

/-- Calculates with accumulator, operand and carry. -/
def calculate (f : Status → Width → UInt16 → UInt16 → UInt16 × Status) (w : Width) (v : UInt16)
    (r : Registers) : Registers :=
  let (result, status) := f r.status w r.accumulator v
  { r with status }.setAccumulator result

/-- Compares a register with the operand. -/
def compare (register : Registers → UInt16) (w : Width) (v : UInt16) (r : Registers) : Registers :=
  { r with status := Arithmetic.compare r.status w (register r) v }

/-- Tests the bits of the operand that are set in the accumulator. The two top bits of an operand in
    memory go to N and V. -/
def testBits (immediate : Bool) (w : Width) (v : UInt16) (r : Registers) : Registers :=
  let status := { r.status with zero := r.accumulator &&& v == 0 }
  if immediate then
    { r with status }
  else
    { r with status := { status with
        negative := w.isNegative v
        overflow := v &&& (w.signBit / 2) != 0 } }

/-- Sets or clears the bits of the operand that are set in the accumulator, and tests them. -/
def changeBits (f : UInt16 → UInt16 → UInt16) (w : Width) (v : UInt16) (r : Registers) :
    UInt16 × Status :=
  (w.truncate (f r.accumulator v), { r.status with zero := r.accumulator &&& v == 0 })

/-- Shifts or rotates. The function is given the operand and the carry, and gives the result and the
    bit that falls out. -/
def shift (f : Width → UInt16 → Bool → UInt16 × Bool) (w : Width) (v : UInt16) (r : Registers) :
    UInt16 × Status :=
  let (result, carry) := f w v r.status.carry
  let result := w.truncate result
  (result, { r.status with carry }.withResult w result)

/-- Zero or one. -/
def bit (flag : Bool) : UInt16 :=
  if flag then 1 else 0

/-- Shifts left, with the given bit coming in. -/
def shiftLeft (w : Width) (v : UInt16) (into : Bool) : UInt16 × Bool :=
  (2 * v + bit into, w.isNegative v)

/-- Shifts right, with the given bit coming in. -/
def shiftRight (w : Width) (v : UInt16) (into : Bool) : UInt16 × Bool :=
  (v / 2 + (if into then w.signBit else 0), v % 2 == 1)

/-- Counts an operand up or down. -/
def count (direction : Direction) (w : Width) (v : UInt16) (r : Registers) : UInt16 × Status :=
  let result := w.truncate (direction.next v)
  (result, r.status.withResult w result)

/-- Puts a value into X at the width of the index registers. -/
def toX (v : UInt16) (r : Registers) : Registers :=
  loadX r.status.indexWidth (r.indexed v) r

/-- Puts a value into Y at the width of the index registers. -/
def toY (v : UInt16) (r : Registers) : Registers :=
  loadY r.status.indexWidth (r.indexed v) r

/-- Puts a value into the accumulator at its width. -/
def toAccumulator (v : UInt16) (r : Registers) : Registers :=
  let w := r.status.accumulatorWidth
  loadAccumulator w (w.truncate v) r

/-- Puts a value into all of the accumulator. -/
def toWholeAccumulator (v : UInt16) (r : Registers) : Registers :=
  { r with a := v, status := r.status.withResult .word v }

/-- Puts a value into the direct page register. -/
def toDirect (v : UInt16) (r : Registers) : Registers :=
  { r with d := v, status := r.status.withResult .word v }

/-- Moves the stack. No flag tells. -/
def toStack (v : UInt16) (r : Registers) : Registers :=
  { r with stack := r.stack.relocate v }

/-- Exchanges the two bytes of the accumulator. The flags tell about the new low byte. -/
def exchangeBytes (r : Registers) : Registers :=
  let v := joinBytes (highByte r.a) (lowByte r.a)
  { r with a := v, status := r.status.withResult .byte v }

/-- Exchanges the carry and the emulation flag, and with it the mode. -/
def exchangeCarry (r : Registers) : Registers :=
  let status := { r.status with carry := r.status.emulation }
  { r with status }.switchMode r.status.carry

/-- Changes flags only. -/
def flags (f : Status → Status) (r : Registers) : Registers :=
  { r with status := f r.status }

/-- Loads the flags from a pulled value, at once with their effect on the index registers. -/
def pullStatus (v : UInt8) (r : Registers) : Registers :=
  { r with status := r.status.pull v }.narrowIndexes

/-- The flags as they are pushed by a program. In emulation mode the break flag is pushed set. -/
def pushedStatus (r : Registers) : UInt8 :=
  if r.status.emulation then r.status.pack ||| 0x30 else r.status.pack

end Effect

/-! ## The table -/

open Effect in
/-- The effect of an instruction. -/
def Instruction.effect (i : Instruction) : Effect :=
  match i.operation with
  | .adc => .read .accumulator (calculate Arithmetic.addWithCarry)
  | .sbc => .read .accumulator (calculate Arithmetic.subtractWithBorrow)
  | .and => .read .accumulator (combine (· &&& ·))
  | .ora => .read .accumulator (combine (· ||| ·))
  | .eor => .read .accumulator (combine (· ^^^ ·))
  | .cmp => .read .accumulator (Effect.compare Registers.accumulator)
  | .cpx => .read .index (Effect.compare Registers.x)
  | .cpy => .read .index (Effect.compare Registers.y)
  | .bit => .read .accumulator (testBits (i.mode = .immediate))
  | .tsb => .alter (changeBits fun a v => v ||| a)
  | .trb => .alter (changeBits fun a v => v &&& ~~~a)
  | .bcc => .branch fun s => !s.carry
  | .bcs => .branch fun s => s.carry
  | .beq => .branch fun s => s.zero
  | .bne => .branch fun s => !s.zero
  | .bmi => .branch fun s => s.negative
  | .bpl => .branch fun s => !s.negative
  | .bvc => .branch fun s => !s.overflow
  | .bvs => .branch fun s => s.overflow
  | .bra => .branch fun _ => true
  | .brl => .branchLong
  | .asl => .alter (shift fun w v _ => shiftLeft w v false)
  | .lsr => .alter (shift fun w v _ => shiftRight w v false)
  | .rol => .alter (shift shiftLeft)
  | .ror => .alter (shift shiftRight)
  | .lda => .read .accumulator loadAccumulator
  | .ldx => .read .index loadX
  | .ldy => .read .index loadY
  | .sta => .write .accumulator fun r => r.a
  | .stx => .write .index fun r => r.x
  | .sty => .write .index fun r => r.y
  | .stz => .write .accumulator fun _ => 0
  | .inc => .alter (count .up)
  | .dec => .alter (count .down)
  | .inx => .adjust fun r => toX (r.x + 1) r
  | .iny => .adjust fun r => toY (r.y + 1) r
  | .dex => .adjust fun r => toX (r.x - 1) r
  | .dey => .adjust fun r => toY (r.y - 1) r
  | .jmp => .jump .near
  | .jml => .jump .far
  | .jsr => .call .near
  | .jsl => .call .far
  | .rts => .finishCall .near
  | .rtl => .finishCall .far
  | .rti => .finishInterrupt
  | .brk => .interrupt .brk
  | .cop => .interrupt .cop
  | .nop => .adjust id
  | .wdm => .adjust id
  | .wai => .wait
  | .stp => .stop
  | .pha => .push .accumulator fun r => r.a
  | .phx => .push .index fun r => r.x
  | .phy => .push .index fun r => r.y
  | .pla => .pull .accumulator loadAccumulator
  | .plx => .pull .index loadX
  | .ply => .pull .index loadY
  | .php => .push .byte fun r => (pushedStatus r).toUInt16
  | .plp => .pull .byte fun _ v => pullStatus (lowByte v)
  | .phb => .push .byte fun r => r.dbr.toUInt16
  | .plb => .pull .byte fun w v r =>
      { r with dbr := lowByte v, status := r.status.withResult w v }
  | .phd => .push .word fun r => r.d
  | .pld => .pull .word fun _ => toDirect
  | .phk => .push .byte fun r => r.pbr.toUInt16
  | .pea => .pushOperand fun _ v => v
  | .pei => .pushOperand fun _ v => v
  | .per => .pushOperand fun r v => r.pc + i.mode.size + v
  | .clc => .adjust (flags fun s => { s with carry := false })
  | .sec => .adjust (flags fun s => { s with carry := true })
  | .cli => .adjust (flags fun s => { s with irqDisable := false })
  | .sei => .adjust (flags fun s => { s with irqDisable := true })
  | .cld => .adjust (flags fun s => { s with decimal := false })
  | .sed => .adjust (flags fun s => { s with decimal := true })
  | .clv => .adjust (flags fun s => { s with overflow := false })
  | .rep => .mask Status.clearBits
  | .sep => .mask Status.setBits
  | .xce => .adjust exchangeCarry
  | .tax => .adjust fun r => toX r.a r
  | .tay => .adjust fun r => toY r.a r
  | .txa => .adjust fun r => toAccumulator r.x r
  | .tya => .adjust fun r => toAccumulator r.y r
  | .tsx => .adjust fun r => toX r.stack.pointer r
  | .txs => .adjust fun r => toStack r.x r
  | .txy => .adjust fun r => toY r.x r
  | .tyx => .adjust fun r => toX r.y r
  | .tcd => .adjust fun r => toDirect r.a r
  | .tdc => .adjust fun r => toWholeAccumulator r.d r
  | .tcs => .adjust fun r => toStack r.a r
  | .tsc => .adjust fun r => toWholeAccumulator r.stack.pointer r
  | .xba => .adjust exchangeBytes
  | .mvn => .moveBlock .up
  | .mvp => .moveBlock .down

end W65C816
