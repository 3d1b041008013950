import W65C816.Stack
import W65C816.Status

/-!
# Registers

The registers of the processor, with the rules that tie them to the widths in effect.

* The accumulator always has 16 bits. When it is narrow, operations see and change its low byte
  only, and the high byte is kept.
* Index registers lose their high bytes when they become narrow: `Registers.narrowIndexes`.
* The stack and the flags both know the mode; `Registers.switchMode` changes both.
-/

namespace W65C816

/-- The registers. -/
structure Registers where
  /-- Accumulator. -/
  a : UInt16
  /-- Index register X. -/
  x : UInt16
  /-- Index register Y. -/
  y : UInt16
  /-- Direct page. -/
  d : UInt16
  /-- Data bank. -/
  dbr : UInt8
  /-- Program bank. -/
  pbr : UInt8
  /-- Program counter. -/
  pc : UInt16
  stack : Stack
  status : Status
  deriving DecidableEq, Repr, Inhabited

namespace Registers

/-- The registers before the first reset. -/
def powerOn : Registers where
  a := 0
  x := 0
  y := 0
  d := 0
  dbr := 0
  pbr := 0
  pc := 0
  stack := .powerOn
  status := .powerOn

/-- Address of the current instruction. -/
def programAddress (r : Registers) : Address :=
  ⟨r.pbr, r.pc⟩

/-- Address of the first byte after the opcode. -/
def operandAddress (r : Registers) : Address :=
  r.programAddress.inBank 1

/-- The accumulator at its width. -/
def accumulator (r : Registers) : UInt16 :=
  r.status.accumulatorWidth.truncate r.a

/-- Stores into the accumulator at its width. -/
def setAccumulator (r : Registers) (v : UInt16) : Registers :=
  match r.status.accumulatorWidth with
  | .byte => { r with a := joinBytes (lowByte v) (highByte r.a) }
  | .word => { r with a := v }

/-- A value as an index register can hold it. -/
@[inline] def indexed (r : Registers) (v : UInt16) : UInt16 :=
  r.status.indexWidth.truncate v

/-- Drops the high bytes of narrow index registers. -/
def narrowIndexes (r : Registers) : Registers :=
  { r with x := r.indexed r.x, y := r.indexed r.y }

/-- Enters or leaves emulation mode. -/
def switchMode (r : Registers) (emulation : Bool) : Registers :=
  let r := { r with status := r.status.switchMode emulation }.narrowIndexes
  { r with stack := r.stack.confine emulation }

/-- The registers when a reset begins. The accumulator, the carry, zero, overflow and negative flags
    and the program counter are not touched. -/
def reset (r : Registers) : Registers :=
  let status := { r.status with irqDisable := true, decimal := false, breakFlag := false }
  let r := { r with status }.switchMode true
  { r with dbr := 0, pbr := 0, d := 0 }

/-- The extra cycle of a direct page that is not aligned, in native mode. -/
def directPenalty (r : Registers) (usesDirectPage : Bool) : UInt64 :=
  if !r.status.emulation && usesDirectPage && lowByte r.d != 0 then 1 else 0

end Registers

end W65C816
