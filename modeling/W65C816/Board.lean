import W65C816.Bus.Backplane
import W65C816.Bus.Chip
import W65C816.Machine.Console

/-!
# A small board

A `Board` is a machine with 128 KiB of memory in banks 0 and 1, ready to take a program. Its
interface is 32 bits wide: addresses are taken modulo the address space, and numbers of cycles are
cut to 32 bits.
-/

namespace W65C816

/-- A machine with some memory, and where the program in it lies. -/
structure Board where
  machine : Machine (Backplane Ram)
  programStart : UInt32
  /-- The address after the program. -/
  programEnd : UInt32

namespace Board

/-- Number of bytes of memory, from address 0 on. -/
def memorySize : Nat := 0x20000

/-- Where a program is expected to start. -/
def defaultStart : UInt16 := 0x600

/-- The memory of a new board: zeros, but for the reset vector. -/
def memory : Backplane Ram :=
  let (bus, _) := (Backplane.empty : Backplane Ram).attach (.ofSize 0 memorySize true)
  bus.load 0xFFFC (wordBytes defaultStart)

/-- A new board. -/
def new : Board where
  machine := (Machine.start memory .standard).machine
  programStart := defaultStart.toUInt32
  programEnd := defaultStart.toUInt32

/-- Does what a command says, and gives the number of cycles if there is one. -/
def perform (b : Board) (c : Command) : Option UInt32 × Board :=
  let o := b.machine.perform c
  (o.result.map UInt64.toUInt32, { b with machine := o.machine })

/-- Makes a step. -/
def step (b : Board) : UInt32 × Board :=
  let o := b.machine.step
  (o.result.toUInt32, { b with machine := o.machine })

/-- Runs for a number of cycles. -/
def run (b : Board) (budget : UInt32) : UInt32 × Board :=
  let o := b.machine.run budget.toUInt64
  (o.result.toUInt32, { b with machine := o.machine })

/-- Goes to an address. -/
def jump (b : Board) (target : UInt32) : Board :=
  (b.perform (.jump (.ofValue target))).2

/-- The byte at an address. -/
def peek (b : Board) (a : UInt32) : UInt8 :=
  Bus.peek b.machine.bus (.ofValue a)

/-- Writes the byte at an address. -/
def poke (b : Board) (a : UInt32) (v : UInt8) : Board :=
  (b.perform (.storeByte (.ofValue a) v)).2

/-- Writes a program to memory and goes to its start. -/
def loadProgram (b : Board) (program : List UInt8) (start : UInt32) : Board :=
  let m := b.machine
  let loaded : Board :=
    { machine := { m with bus := m.bus.load start program }
      programStart := start
      programEnd := start + UInt32.ofNat program.length }
  loaded.jump start

/-- The trace line of the instruction that comes next. -/
def traceText (b : Board) : String :=
  (TraceLine.capture b.machine.core b.machine.bus).text

end Board

end W65C816
