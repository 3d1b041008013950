import W65C816.Instruction.Mode
import W65C816.Instruction.Operation
import W65C816.Status

/-!
# The instruction table

All 256 opcodes are defined. The table gives the operation, the addressing mode and the base cycles
of each; everything else about an instruction follows from these.

* `Instruction.ofOpcode` looks an opcode up.
* `Instruction.size` is the length in bytes under given flags: an immediate operand is a word when
  the register it is meant for is wide, which `Operation.immediateSize` tells.
-/

namespace W65C816

/-- What decides the width of an operand: a width flag, or nothing at all. -/
inductive OperandSize where
  /-- As wide as the accumulator. -/
  | accumulator
  /-- As wide as the index registers. -/
  | index
  /-- One byte. -/
  | byte
  /-- Two bytes. -/
  | word
  deriving DecidableEq, Repr

namespace OperandSize

/-- The width of an operand under the given flags. -/
def width : OperandSize → Status → Width
  | accumulator, s => s.accumulatorWidth
  | index, s => s.indexWidth
  | byte, _ => .byte
  | word, _ => .word

/-- The cycles that a word takes more than a byte. The base cycles of operands of one fixed size
    cover it. -/
def extraCycles (size : OperandSize) (s : Status) : UInt64 :=
  match size, size.width s with
  | accumulator, .word => 1
  | index, .word => 1
  | _, _ => 0

end OperandSize

/-- The size of the immediate operand of an operation. -/
def Operation.immediateSize : Operation → OperandSize
  | adc | and | bit | cmp | eor | lda | ora | sbc => .accumulator
  | cpx | cpy | ldx | ldy => .index
  | _ => .byte

/-- An instruction, as far as its opcode tells. -/
structure Instruction where
  operation : Operation
  mode : Mode
  /-- Cycles with narrow registers, an aligned direct page and no page crossing. -/
  baseCycles : UInt8
  deriving DecidableEq, Repr, Inhabited

namespace Instruction

/-- Length in bytes under the given flags. -/
def size (i : Instruction) (s : Status) : UInt16 :=
  if i.mode = .immediate ∧ i.operation.immediateSize.width s = .word then
    i.mode.size + 1
  else
    i.mode.size

/-- The instructions in the order of their opcodes. -/
def table : Array Instruction := #[
  -- 00
  ⟨.brk, .interrupt, 7⟩, ⟨.ora, .directIndexedIndirect, 6⟩, ⟨.cop, .interrupt, 7⟩,
  ⟨.ora, .stackRelative, 4⟩, ⟨.tsb, .direct, 5⟩, ⟨.ora, .direct, 3⟩, ⟨.asl, .direct, 5⟩,
  ⟨.ora, .directIndirectLong, 6⟩, ⟨.php, .stackImplied, 3⟩, ⟨.ora, .immediate, 2⟩,
  ⟨.asl, .accumulator, 2⟩, ⟨.phd, .stackImplied, 4⟩, ⟨.tsb, .absolute, 6⟩, ⟨.ora, .absolute, 4⟩,
  ⟨.asl, .absolute, 6⟩, ⟨.ora, .absoluteLong, 5⟩,
  -- 10
  ⟨.bpl, .relative, 2⟩, ⟨.ora, .directIndirectIndexed, 5⟩, ⟨.ora, .directIndirect, 5⟩,
  ⟨.ora, .stackRelativeIndirectIndexed, 7⟩, ⟨.trb, .direct, 5⟩, ⟨.ora, .directX, 4⟩,
  ⟨.asl, .directX, 6⟩, ⟨.ora, .directIndirectLongIndexed, 6⟩, ⟨.clc, .implied, 2⟩,
  ⟨.ora, .absoluteY, 4⟩, ⟨.inc, .accumulator, 2⟩, ⟨.tcs, .implied, 2⟩, ⟨.trb, .absolute, 6⟩,
  ⟨.ora, .absoluteX, 4⟩, ⟨.asl, .absoluteX, 7⟩, ⟨.ora, .absoluteLongX, 5⟩,
  -- 20
  ⟨.jsr, .absolute, 6⟩, ⟨.and, .directIndexedIndirect, 6⟩, ⟨.jsl, .absoluteLong, 8⟩,
  ⟨.and, .stackRelative, 4⟩, ⟨.bit, .direct, 3⟩, ⟨.and, .direct, 3⟩, ⟨.rol, .direct, 5⟩,
  ⟨.and, .directIndirectLong, 6⟩, ⟨.plp, .stackImplied, 4⟩, ⟨.and, .immediate, 2⟩,
  ⟨.rol, .accumulator, 2⟩, ⟨.pld, .stackImplied, 5⟩, ⟨.bit, .absolute, 4⟩, ⟨.and, .absolute, 4⟩,
  ⟨.rol, .absolute, 6⟩, ⟨.and, .absoluteLong, 5⟩,
  -- 30
  ⟨.bmi, .relative, 2⟩, ⟨.and, .directIndirectIndexed, 5⟩, ⟨.and, .directIndirect, 5⟩,
  ⟨.and, .stackRelativeIndirectIndexed, 7⟩, ⟨.bit, .directX, 4⟩, ⟨.and, .directX, 4⟩,
  ⟨.rol, .directX, 6⟩, ⟨.and, .directIndirectLongIndexed, 6⟩, ⟨.sec, .implied, 2⟩,
  ⟨.and, .absoluteY, 4⟩, ⟨.dec, .accumulator, 2⟩, ⟨.tsc, .implied, 2⟩, ⟨.bit, .absoluteX, 4⟩,
  ⟨.and, .absoluteX, 4⟩, ⟨.rol, .absoluteX, 7⟩, ⟨.and, .absoluteLongX, 5⟩,
  -- 40
  ⟨.rti, .stackImplied, 6⟩, ⟨.eor, .directIndexedIndirect, 6⟩, ⟨.wdm, .immediate, 2⟩,
  ⟨.eor, .stackRelative, 4⟩, ⟨.mvp, .blockMove, 7⟩, ⟨.eor, .direct, 3⟩, ⟨.lsr, .direct, 5⟩,
  ⟨.eor, .directIndirectLong, 6⟩, ⟨.pha, .stackImplied, 3⟩, ⟨.eor, .immediate, 2⟩,
  ⟨.lsr, .accumulator, 2⟩, ⟨.phk, .stackImplied, 3⟩, ⟨.jmp, .absolute, 3⟩, ⟨.eor, .absolute, 4⟩,
  ⟨.lsr, .absolute, 6⟩, ⟨.eor, .absoluteLong, 5⟩,
  -- 50
  ⟨.bvc, .relative, 2⟩, ⟨.eor, .directIndirectIndexed, 5⟩, ⟨.eor, .directIndirect, 5⟩,
  ⟨.eor, .stackRelativeIndirectIndexed, 7⟩, ⟨.mvn, .blockMove, 7⟩, ⟨.eor, .directX, 4⟩,
  ⟨.lsr, .directX, 6⟩, ⟨.eor, .directIndirectLongIndexed, 6⟩, ⟨.cli, .implied, 2⟩,
  ⟨.eor, .absoluteY, 4⟩, ⟨.phy, .stackImplied, 3⟩, ⟨.tcd, .implied, 2⟩, ⟨.jml, .absoluteLong, 4⟩,
  ⟨.eor, .absoluteX, 4⟩, ⟨.lsr, .absoluteX, 7⟩, ⟨.eor, .absoluteLongX, 5⟩,
  -- 60
  ⟨.rts, .stackImplied, 6⟩, ⟨.adc, .directIndexedIndirect, 6⟩,
  ⟨.per, .stackProgramCounterRelative, 6⟩, ⟨.adc, .stackRelative, 4⟩, ⟨.stz, .direct, 3⟩,
  ⟨.adc, .direct, 3⟩, ⟨.ror, .direct, 5⟩, ⟨.adc, .directIndirectLong, 6⟩,
  ⟨.pla, .stackImplied, 4⟩, ⟨.adc, .immediate, 2⟩, ⟨.ror, .accumulator, 2⟩,
  ⟨.rtl, .stackImplied, 6⟩, ⟨.jmp, .absoluteIndirect, 5⟩, ⟨.adc, .absolute, 4⟩,
  ⟨.ror, .absolute, 6⟩, ⟨.adc, .absoluteLong, 5⟩,
  -- 70
  ⟨.bvs, .relative, 2⟩, ⟨.adc, .directIndirectIndexed, 5⟩, ⟨.adc, .directIndirect, 5⟩,
  ⟨.adc, .stackRelativeIndirectIndexed, 7⟩, ⟨.stz, .directX, 4⟩, ⟨.adc, .directX, 4⟩,
  ⟨.ror, .directX, 6⟩, ⟨.adc, .directIndirectLongIndexed, 6⟩, ⟨.sei, .implied, 2⟩,
  ⟨.adc, .absoluteY, 4⟩, ⟨.ply, .stackImplied, 4⟩, ⟨.tdc, .implied, 2⟩,
  ⟨.jmp, .absoluteIndexedIndirect, 6⟩, ⟨.adc, .absoluteX, 4⟩, ⟨.ror, .absoluteX, 7⟩,
  ⟨.adc, .absoluteLongX, 5⟩,
  -- 80
  ⟨.bra, .relative, 2⟩, ⟨.sta, .directIndexedIndirect, 6⟩, ⟨.brl, .relativeLong, 4⟩,
  ⟨.sta, .stackRelative, 4⟩, ⟨.sty, .direct, 3⟩, ⟨.sta, .direct, 3⟩, ⟨.stx, .direct, 3⟩,
  ⟨.sta, .directIndirectLong, 6⟩, ⟨.dey, .implied, 2⟩, ⟨.bit, .immediate, 2⟩,
  ⟨.txa, .implied, 2⟩, ⟨.phb, .stackImplied, 3⟩, ⟨.sty, .absolute, 4⟩, ⟨.sta, .absolute, 4⟩,
  ⟨.stx, .absolute, 4⟩, ⟨.sta, .absoluteLong, 5⟩,
  -- 90
  ⟨.bcc, .relative, 2⟩, ⟨.sta, .directIndirectIndexed, 6⟩, ⟨.sta, .directIndirect, 5⟩,
  ⟨.sta, .stackRelativeIndirectIndexed, 7⟩, ⟨.sty, .directX, 4⟩, ⟨.sta, .directX, 4⟩,
  ⟨.stx, .directY, 4⟩, ⟨.sta, .directIndirectLongIndexed, 6⟩, ⟨.tya, .implied, 2⟩,
  ⟨.sta, .absoluteY, 5⟩, ⟨.txs, .implied, 2⟩, ⟨.txy, .implied, 2⟩, ⟨.stz, .absolute, 4⟩,
  ⟨.sta, .absoluteX, 5⟩, ⟨.stz, .absoluteX, 5⟩, ⟨.sta, .absoluteLongX, 5⟩,
  -- A0
  ⟨.ldy, .immediate, 2⟩, ⟨.lda, .directIndexedIndirect, 6⟩, ⟨.ldx, .immediate, 2⟩,
  ⟨.lda, .stackRelative, 4⟩, ⟨.ldy, .direct, 3⟩, ⟨.lda, .direct, 3⟩, ⟨.ldx, .direct, 3⟩,
  ⟨.lda, .directIndirectLong, 6⟩, ⟨.tay, .implied, 2⟩, ⟨.lda, .immediate, 2⟩,
  ⟨.tax, .implied, 2⟩, ⟨.plb, .stackImplied, 4⟩, ⟨.ldy, .absolute, 4⟩, ⟨.lda, .absolute, 4⟩,
  ⟨.ldx, .absolute, 4⟩, ⟨.lda, .absoluteLong, 5⟩,
  -- B0
  ⟨.bcs, .relative, 2⟩, ⟨.lda, .directIndirectIndexed, 5⟩, ⟨.lda, .directIndirect, 5⟩,
  ⟨.lda, .stackRelativeIndirectIndexed, 7⟩, ⟨.ldy, .directX, 4⟩, ⟨.lda, .directX, 4⟩,
  ⟨.ldx, .directY, 4⟩, ⟨.lda, .directIndirectLongIndexed, 6⟩, ⟨.clv, .implied, 2⟩,
  ⟨.lda, .absoluteY, 4⟩, ⟨.tsx, .implied, 2⟩, ⟨.tyx, .implied, 2⟩, ⟨.ldy, .absoluteX, 4⟩,
  ⟨.lda, .absoluteX, 4⟩, ⟨.ldx, .absoluteY, 4⟩, ⟨.lda, .absoluteLongX, 5⟩,
  -- C0
  ⟨.cpy, .immediate, 2⟩, ⟨.cmp, .directIndexedIndirect, 6⟩, ⟨.rep, .immediate, 3⟩,
  ⟨.cmp, .stackRelative, 4⟩, ⟨.cpy, .direct, 3⟩, ⟨.cmp, .direct, 3⟩, ⟨.dec, .direct, 5⟩,
  ⟨.cmp, .directIndirectLong, 6⟩, ⟨.iny, .implied, 2⟩, ⟨.cmp, .immediate, 2⟩,
  ⟨.dex, .implied, 2⟩, ⟨.wai, .implied, 3⟩, ⟨.cpy, .absolute, 4⟩, ⟨.cmp, .absolute, 4⟩,
  ⟨.dec, .absolute, 6⟩, ⟨.cmp, .absoluteLong, 5⟩,
  -- D0
  ⟨.bne, .relative, 2⟩, ⟨.cmp, .directIndirectIndexed, 5⟩, ⟨.cmp, .directIndirect, 5⟩,
  ⟨.cmp, .stackRelativeIndirectIndexed, 7⟩, ⟨.pei, .stackDirectIndirect, 6⟩, ⟨.cmp, .directX, 4⟩,
  ⟨.dec, .directX, 6⟩, ⟨.cmp, .directIndirectLongIndexed, 6⟩, ⟨.cld, .implied, 2⟩,
  ⟨.cmp, .absoluteY, 4⟩, ⟨.phx, .stackImplied, 3⟩, ⟨.stp, .implied, 3⟩,
  ⟨.jml, .absoluteIndirectLong, 6⟩, ⟨.cmp, .absoluteX, 4⟩, ⟨.dec, .absoluteX, 7⟩,
  ⟨.cmp, .absoluteLongX, 5⟩,
  -- E0
  ⟨.cpx, .immediate, 2⟩, ⟨.sbc, .directIndexedIndirect, 6⟩, ⟨.sep, .immediate, 3⟩,
  ⟨.sbc, .stackRelative, 4⟩, ⟨.cpx, .direct, 3⟩, ⟨.sbc, .direct, 3⟩, ⟨.inc, .direct, 5⟩,
  ⟨.sbc, .directIndirectLong, 6⟩, ⟨.inx, .implied, 2⟩, ⟨.sbc, .immediate, 2⟩,
  ⟨.nop, .implied, 2⟩, ⟨.xba, .implied, 3⟩, ⟨.cpx, .absolute, 4⟩, ⟨.sbc, .absolute, 4⟩,
  ⟨.inc, .absolute, 6⟩, ⟨.sbc, .absoluteLong, 5⟩,
  -- F0
  ⟨.beq, .relative, 2⟩, ⟨.sbc, .directIndirectIndexed, 5⟩, ⟨.sbc, .directIndirect, 5⟩,
  ⟨.sbc, .stackRelativeIndirectIndexed, 7⟩, ⟨.pea, .stackAbsolute, 5⟩, ⟨.sbc, .directX, 4⟩,
  ⟨.inc, .directX, 6⟩, ⟨.sbc, .directIndirectLongIndexed, 6⟩, ⟨.sed, .implied, 2⟩,
  ⟨.sbc, .absoluteY, 4⟩, ⟨.plx, .stackImplied, 4⟩, ⟨.xce, .implied, 2⟩,
  ⟨.jsr, .absoluteIndexedIndirect, 8⟩, ⟨.sbc, .absoluteX, 4⟩, ⟨.inc, .absoluteX, 7⟩,
  ⟨.sbc, .absoluteLongX, 5⟩]

/-- There is an instruction for every opcode. -/
theorem size_table : table.size = 256 := by decide +kernel

/-- The instruction that an opcode stands for. -/
def ofOpcode (opcode : UInt8) : Instruction :=
  have inTable : opcode.toNat < table.size := by rw [size_table]; exact opcode.toNat_lt
  table[opcode.toNat]

/-- What is decoded is in the table, so a fact about all of the table holds of it. -/
theorem ofOpcode_mem (opcode : UInt8) : ofOpcode opcode ∈ table.toList :=
  Array.getElem_mem_toList _

end Instruction

end W65C816
