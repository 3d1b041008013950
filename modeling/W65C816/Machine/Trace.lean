import W65C816.Instruction.Table
import W65C816.Machine.Basic

/-!
# Trace lines

A `TraceLine` shows a machine that is about to carry out an instruction: the bytes of the
instruction, the registers, and the top of the stack. Taking one only peeks at the bus.

    00:8000  A9 42        LDA  A=0000 X=0000 Y=0000 S=01FF D=0000 DB=00 P=24 E | 00 00 00
-/

namespace W65C816

/-- What a trace shows of one instruction. -/
structure TraceLine where
  address : Address
  opcode : UInt8
  mnemonic : String
  /-- The bytes after the opcode. -/
  operands : List UInt8
  a : UInt16
  x : UInt16
  y : UInt16
  sp : UInt16
  d : UInt16
  dbr : UInt8
  /-- The packed flags. -/
  status : UInt8
  emulation : Bool
  /-- The bytes above the stack pointer, the last one pushed first. -/
  stack : List UInt8
  deriving DecidableEq, Repr

namespace TraceLine

/-- How many bytes of the stack a trace shows. -/
def stackDepth : Nat := 3

/-- Shows a core that is about to carry out the instruction at its program address. -/
def capture {B : Type} [Bus B] (c : Core) (bus : B) : TraceLine :=
  let address := c.programAddress
  let opcode := Bus.peek bus address
  let instruction := Instruction.ofOpcode opcode
  let operandCount := (instruction.size c.status).toNat - 1
  { address
    opcode
    mnemonic := instruction.operation.mnemonic
    operands := (List.range operandCount).map fun k =>
      Bus.peek bus (address.inBank (UInt16.ofNat (k + 1)))
    a := c.a
    x := c.x
    y := c.y
    sp := c.stack.pointer
    d := c.d
    dbr := c.dbr
    status := c.status.pack
    emulation := c.status.emulation
    stack := (List.range stackDepth).map fun k => c.stack.peek bus (UInt16.ofNat (k + 1)) }

/-- Bytes with a blank between them. -/
def bytesText (l : List UInt8) : String :=
  " ".intercalate (l.map Hex.byte)

/-- A text followed by blanks up to a width. -/
def padded (width : Nat) (s : String) : String :=
  s ++ String.ofList (List.replicate (width - s.length) ' ')

/-- The line as it is printed. -/
def text (l : TraceLine) : String :=
  let bytes := padded 11 (bytesText (l.opcode :: l.operands))
  let mode := if l.emulation then "E" else "N"
  s!"{l.address.text}  {bytes}  {l.mnemonic}  A={Hex.word l.a} X={Hex.word l.x} " ++
    s!"Y={Hex.word l.y} S={Hex.word l.sp} D={Hex.word l.d} DB={Hex.byte l.dbr} " ++
    s!"P={Hex.byte l.status} {mode} |" ++ String.join (l.stack.map fun v => " " ++ Hex.byte v)

end TraceLine

end W65C816
