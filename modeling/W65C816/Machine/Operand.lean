import W65C816.Instruction.Mode
import W65C816.Machine.Basic

/-!
# Operands

Where the operand of the current instruction is, and how it gets in and out.

* `Action.locate` finds the effective address of a mode. It reads the bytes that follow the opcode
  and then, if there is one, the pointer: each byte once, and in this order.
* Data at an effective address may be a word, and then it depends on the mode whether its second
  byte lies in the same bank.

In emulation mode the direct page is page 0 whatever the direct page register says, and places on it
wrap at its end.
-/

namespace W65C816

/-- An effective address, and whether an index took it to another page. -/
structure Located where
  address : Address
  crossed : Bool
  deriving DecidableEq, Repr

/-- An address that no index took to another page. -/
def Located.fixed (address : Address) : Located :=
  ⟨address, false⟩

/-- The address `index` bytes after a base. Pages are compared by offsets alone. -/
def Located.after (base : Address) (index : UInt16) : Located :=
  ⟨base.onward index.toUInt32, Address.onDifferentPages base.offset (base.offset + index)⟩

namespace Registers

/-- The place on the direct page with the given displacement and index. -/
def directAddress (r : Registers) (displacement : UInt8) (index : UInt16) : Address :=
  if r.status.emulation then
    ⟨0, (displacement.toUInt16 + index) % 0x100⟩
  else
    ⟨0, r.d + displacement.toUInt16 + index⟩

/-- The place above the stack pointer with the given displacement. -/
def stackAddress (r : Registers) (displacement : UInt8) : Address :=
  ⟨0, r.stack.pointer + displacement.toUInt16⟩

end Registers

namespace Action

variable {B : Type} [Bus B]

/-- Reads the byte after the opcode. -/
def operandByte : Action B UInt8 := do
  read (← registers).operandAddress

/-- Reads the word after the opcode. -/
def operandWord : Action B UInt16 := do
  readWordInBank (← registers).operandAddress

/-- Reads the 24-bit address after the opcode. -/
def operandLong : Action B Address := do
  readPointerInBank (← registers).operandAddress

/-- Reads a 16-bit pointer on the direct page. In emulation mode a pointer that starts at the end of
    a page goes on at the start of the same page. -/
def directPointer (a : Address) : Action B UInt16 := do
  if (← registers).status.emulation && lowByte a.offset == 0xFF then
    let low ← read a
    let high ← read ⟨0, joinBytes 0 (highByte a.offset)⟩
    return joinBytes low high
  else
    readWordInBank a

/-- Finds the effective address of the current instruction. A mode without an operand in memory has
    the address of the instruction itself. -/
def locate (mode : Mode) : Action B Located := do
  let r ← registers
  match mode with
  | .implied | .accumulator | .stackImplied | .interrupt =>
      return .fixed r.programAddress
  | .immediate | .relative | .relativeLong | .blockMove | .stackAbsolute
  | .stackProgramCounterRelative =>
      return .fixed r.operandAddress
  | .absolute =>
      let offset ← operandWord
      return .fixed ⟨r.dbr, offset⟩
  | .absoluteX =>
      let offset ← operandWord
      return .after ⟨r.dbr, offset⟩ r.x
  | .absoluteY =>
      let offset ← operandWord
      return .after ⟨r.dbr, offset⟩ r.y
  | .absoluteLong =>
      let target ← operandLong
      return .fixed target
  | .absoluteLongX =>
      let base ← operandLong
      return .fixed (base.onward r.x.toUInt32)
  | .absoluteIndirect =>
      let place ← operandWord
      let offset ← readWordInBank ⟨0, place⟩
      return .fixed ⟨r.pbr, offset⟩
  | .absoluteIndirectLong =>
      let place ← operandWord
      let target ← readPointerInBank ⟨0, place⟩
      return .fixed target
  | .absoluteIndexedIndirect =>
      let place ← operandWord
      let offset ← readWordInBank ⟨r.pbr, place + r.x⟩
      return .fixed ⟨r.pbr, offset⟩
  | .direct | .stackDirectIndirect =>
      let displacement ← operandByte
      return .fixed (r.directAddress displacement 0)
  | .directX =>
      let displacement ← operandByte
      return .fixed (r.directAddress displacement r.x)
  | .directY =>
      let displacement ← operandByte
      return .fixed (r.directAddress displacement r.y)
  | .directIndirect =>
      let displacement ← operandByte
      let offset ← directPointer (r.directAddress displacement 0)
      return .fixed ⟨r.dbr, offset⟩
  | .directIndirectLong =>
      let displacement ← operandByte
      let target ← readPointerInBank (r.directAddress displacement 0)
      return .fixed target
  | .directIndexedIndirect =>
      let displacement ← operandByte
      let offset ← directPointer (r.directAddress displacement r.x)
      return .fixed ⟨r.dbr, offset⟩
  | .directIndirectIndexed =>
      let displacement ← operandByte
      let offset ← directPointer (r.directAddress displacement 0)
      return .after ⟨r.dbr, offset⟩ r.y
  | .directIndirectLongIndexed =>
      let displacement ← operandByte
      let base ← readPointerInBank (r.directAddress displacement 0)
      return .fixed (base.onward r.y.toUInt32)
  | .stackRelative =>
      let displacement ← operandByte
      return .fixed (r.stackAddress displacement)
  | .stackRelativeIndirectIndexed =>
      let displacement ← operandByte
      let offset ← readWordInBank (r.stackAddress displacement)
      return .fixed (Address.onward ⟨r.dbr, offset⟩ r.y.toUInt32)

/-- Reads data at an effective address of a mode. -/
def readData (a : Address) (mode : Mode) (w : Width) : Action B UInt16 :=
  match w with
  | .byte => do return (← read a).toUInt16
  | .word => if mode.wrapsInBankZero then readWordInBank a else readWord a

/-- Writes data to an effective address of a mode. -/
def writeData (a : Address) (mode : Mode) (w : Width) (v : UInt16) : Action B Unit :=
  match w with
  | .byte => write a (lowByte v)
  | .word => if mode.wrapsInBankZero then writeWordInBank a v else writeWord a v

/-- Reads the operand of the current instruction, which follows the opcode or lies at the effective
    address. The flag tells of a page crossing. -/
def readOperand (mode : Mode) (w : Width) : Action B (UInt16 × Bool) :=
  match mode, w with
  | .immediate, .byte => do return ((← operandByte).toUInt16, false)
  | .immediate, .word => do return (← operandWord, false)
  | mode, w => do
      let place ← locate mode
      let v ← readData place.address mode w
      return (v, place.crossed)

/-- Alters the operand of the current instruction in place, in the accumulator or in memory. The
    change may also set flags. -/
def alterOperand (mode : Mode) (w : Width)
    (change : UInt16 → Registers → UInt16 × Status) : Action B Unit := do
  if mode = .accumulator then
    changeRegisters fun r =>
      let (v, status) := change r.accumulator r
      { r with status }.setAccumulator v
  else
    let place ← locate mode
    let v ← readData place.address mode w
    let (result, status) := change v (← registers)
    changeRegisters fun r => { r with status }
    writeData place.address mode w result

end Action

end W65C816
