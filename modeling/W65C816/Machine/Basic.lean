import W65C816.Machine.Core

/-!
# Machines and what they do

A `Machine` is a core on a bus. What instructions are made of are *actions*: functions that take a
machine to a machine and give a result, so `Action B` is the state monad of machines. Actions only
touch the bus in the order in which they are written, which makes the traffic on the bus part of
their meaning.

The actions here are the smallest: one access to the bus, one change of the core, one push or pull.
-/

namespace W65C816

/-- A processor core and the bus it is on. -/
structure Machine (B : Type) where
  core : Core
  bus : B

/-- A piece of work on a machine. -/
abbrev Action (B : Type) := StateM (Machine B)

namespace Action

variable {B : Type}

/-! ## The core -/

/-- The core as it is. -/
@[inline] def core : Action B Core := fun m =>
  (m.core, m)

/-- The registers as they are. -/
@[inline] def registers : Action B Registers := fun m =>
  (m.core.toRegisters, m)

/-- Changes the core. -/
@[inline] def changeCore (f : Core → Core) : Action B Unit := fun m =>
  ((), { m with core := f m.core })

/-- Changes the registers. -/
@[inline] def changeRegisters (f : Registers → Registers) : Action B Unit :=
  changeCore (Core.mapRegisters f)

/-- Goes to an offset in the program bank. -/
@[inline] def goTo (pc : UInt16) : Action B Unit :=
  changeRegisters fun r => { r with pc }

/-- Adds cycles to the count. -/
@[inline] def charge (n : UInt64) : Action B Unit :=
  changeCore (Core.charge · n)

/-! ## The bus -/

variable [Bus B]

/-- Reads a byte. -/
@[inline] def read (a : Address) : Action B UInt8 := fun m =>
  let (v, bus) := Bus.read m.bus a
  (v, { m with bus })

/-- Writes a byte. -/
@[inline] def write (a : Address) (v : UInt8) : Action B Unit := fun m =>
  ((), { m with bus := Bus.write m.bus a v })

/-- Reads a word at two addresses of the whole space. -/
@[inline] def readWord (a : Address) : Action B UInt16 := fun m =>
  let (v, bus) := Bus.readWord m.bus a
  (v, { m with bus })

/-- Writes a word to two addresses of the whole space. -/
@[inline] def writeWord (a : Address) (v : UInt16) : Action B Unit := fun m =>
  ((), { m with bus := Bus.writeWord m.bus a v })

/-- Reads a word in one bank. -/
@[inline] def readWordInBank (a : Address) : Action B UInt16 := fun m =>
  let (v, bus) := Bus.readWordInBank m.bus a
  (v, { m with bus })

/-- Writes a word in one bank. -/
@[inline] def writeWordInBank (a : Address) (v : UInt16) : Action B Unit := fun m =>
  ((), { m with bus := Bus.writeWordInBank m.bus a v })

/-- Reads a 24-bit address in one bank. -/
@[inline] def readPointerInBank (a : Address) : Action B Address := fun m =>
  let (v, bus) := Bus.readPointerInBank m.bus a
  (v, { m with bus })

/-! ## The stack -/

/-- Pushes a byte. -/
@[inline] def pushByte (v : UInt8) : Action B Unit := fun m =>
  let (stack, bus) := m.core.stack.pushByte m.bus v
  ((), { core := { m.core with stack }, bus })

/-- Pushes a word. -/
@[inline] def pushWord (v : UInt16) : Action B Unit := fun m =>
  let (stack, bus) := m.core.stack.pushWord m.bus v
  ((), { core := { m.core with stack }, bus })

/-- Pushes an operand. -/
@[inline] def push (w : Width) (v : UInt16) : Action B Unit := fun m =>
  let (stack, bus) := m.core.stack.push m.bus w v
  ((), { core := { m.core with stack }, bus })

/-- Pulls a byte. -/
@[inline] def pullByte : Action B UInt8 := fun m =>
  let (v, stack, bus) := m.core.stack.pullByte m.bus
  (v, { core := { m.core with stack }, bus })

/-- Pulls a word. -/
@[inline] def pullWord : Action B UInt16 := fun m =>
  let (v, stack, bus) := m.core.stack.pullWord m.bus
  (v, { core := { m.core with stack }, bus })

/-- Pulls an operand. -/
@[inline] def pull (w : Width) : Action B UInt16 := fun m =>
  let (v, stack, bus) := m.core.stack.pull m.bus w
  (v, { core := { m.core with stack }, bus })

end Action

end W65C816
