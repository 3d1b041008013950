/-!
# Addressing modes

An addressing mode says where the operand of an instruction is, and with that how many bytes the
instruction takes.

* Absolute modes use the data bank, long modes bring their own bank, and direct and stack modes use
  bank 0. Targets of jumps stay in the program bank unless the mode is long.
* `Mode.usesDirectPage`, `Mode.wrapsInBankZero` and `Mode.paysForPageCrossing` single out the modes
  with rules of their own.
-/

namespace W65C816

/-- Where an operand is. -/
inductive Mode where
  /-- No operand. -/
  | implied
  /-- The accumulator. -/
  | accumulator
  /-- The operand follows the opcode. -/
  | immediate
  /-- A signed byte, counted from the next instruction. -/
  | relative
  /-- A signed word, counted from the next instruction. -/
  | relativeLong
  /-- An offset in the data bank. -/
  | absolute
  | absoluteX
  | absoluteY
  /-- A 24-bit address. -/
  | absoluteLong
  | absoluteLongX
  /-- The place in bank 0 of an offset in the program bank. -/
  | absoluteIndirect
  /-- The place in bank 0 of a 24-bit address. -/
  | absoluteIndirectLong
  /-- The place in the program bank, counted from X, of an offset in the program bank. -/
  | absoluteIndexedIndirect
  /-- A place on the direct page. -/
  | direct
  | directX
  | directY
  /-- The place on the direct page of an offset in the data bank. -/
  | directIndirect
  /-- The place on the direct page of a 24-bit address. -/
  | directIndirectLong
  /-- As `directIndirect`, with the place counted from X. -/
  | directIndexedIndirect
  /-- As `directIndirect`, with the target counted from Y. -/
  | directIndirectIndexed
  /-- As `directIndirectLong`, with the target counted from Y. -/
  | directIndirectLongIndexed
  /-- A place above the stack pointer. -/
  | stackRelative
  /-- The place above the stack pointer of an offset in the data bank, counted from Y. -/
  | stackRelativeIndirectIndexed
  /-- Two banks, the destination first. -/
  | blockMove
  /-- The stack, with no operand. -/
  | stackImplied
  /-- A word that is pushed. -/
  | stackAbsolute
  /-- The place on the direct page of a word that is pushed. -/
  | stackDirectIndirect
  /-- A word, counted from the next instruction, that is pushed. -/
  | stackProgramCounterRelative
  /-- A signature byte that the processor ignores. -/
  | interrupt
  deriving DecidableEq, Repr, Inhabited

namespace Mode

/-- All modes. -/
def all : List Mode :=
  [implied, accumulator, immediate, relative, relativeLong, absolute, absoluteX, absoluteY,
    absoluteLong, absoluteLongX, absoluteIndirect, absoluteIndirectLong, absoluteIndexedIndirect,
    direct, directX, directY, directIndirect, directIndirectLong, directIndexedIndirect,
    directIndirectIndexed, directIndirectLongIndexed, stackRelative, stackRelativeIndirectIndexed,
    blockMove, stackImplied, stackAbsolute, stackDirectIndirect, stackProgramCounterRelative,
    interrupt]

/-- The name of a mode. -/
def name : Mode → String
  | implied => "Implied"
  | accumulator => "Accumulator"
  | immediate => "Immediate"
  | relative => "Relative"
  | relativeLong => "RelativeLong"
  | absolute => "Absolute"
  | absoluteX => "AbsoluteX"
  | absoluteY => "AbsoluteY"
  | absoluteLong => "AbsoluteLong"
  | absoluteLongX => "AbsoluteLongX"
  | absoluteIndirect => "AbsoluteIndirect"
  | absoluteIndirectLong => "AbsoluteIndirectLong"
  | absoluteIndexedIndirect => "AbsoluteIndexedIndirect"
  | direct => "Direct"
  | directX => "DirectX"
  | directY => "DirectY"
  | directIndirect => "DirectIndirect"
  | directIndirectLong => "DirectIndirectLong"
  | directIndexedIndirect => "DirectIndexedIndirect"
  | directIndirectIndexed => "DirectIndirectIndexed"
  | directIndirectLongIndexed => "DirectIndirectLongIndexed"
  | stackRelative => "StackRelative"
  | stackRelativeIndirectIndexed => "StackRelativeIndirectIndexed"
  | blockMove => "BlockMove"
  | stackImplied => "StackImplied"
  | stackAbsolute => "StackAbsolute"
  | stackDirectIndirect => "StackDirectIndirect"
  | stackProgramCounterRelative => "StackProgramCounterRelative"
  | interrupt => "Interrupt"

/-- The mode with a given name. -/
def ofName? (s : String) : Option Mode :=
  all.find? (·.name == s)

/-- True for the modes that find their operand through the direct page register. They take one
    cycle more when its low byte is not zero. -/
def usesDirectPage : Mode → Bool
  | direct | directX | directY | directIndirect | directIndirectLong | directIndexedIndirect
  | directIndirectIndexed | directIndirectLongIndexed | stackDirectIndirect => true
  | _ => false

/-- True for the modes whose operand lies in bank 0, so that its second byte wraps there. -/
def wrapsInBankZero : Mode → Bool
  | direct | directX | directY | stackRelative => true
  | _ => false

/-- True for the indexed modes where a reading takes one cycle more when the index leaves the
    page. -/
def paysForPageCrossing : Mode → Bool
  | absoluteX | absoluteY | directIndirectIndexed => true
  | _ => false

/-- Number of bytes of an instruction with this mode, when an immediate operand is one byte. -/
def size : Mode → UInt16
  | implied | accumulator | stackImplied => 1
  | relativeLong | absolute | absoluteX | absoluteY | absoluteIndirect | absoluteIndirectLong
  | absoluteIndexedIndirect | blockMove | stackAbsolute | stackProgramCounterRelative => 3
  | absoluteLong | absoluteLongX => 4
  | _ => 2

end Mode

end W65C816
