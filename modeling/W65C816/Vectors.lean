/-!
# Interrupt vectors

The processor finds its interrupt handlers through two tables in bank 0, one for each mode. A
`VectorTable` holds the locations of the vectors; the handlers themselves are read from the bus
when an interrupt is taken.

In emulation mode a break shares the location of interrupt requests: `VectorTables.location` is
the place where an interrupt of either mode looks.
-/

namespace W65C816

/-- What can interrupt the running program: three pins and two instructions. -/
inductive Interrupt where
  | abort
  | nmi
  | irq
  | brk
  | cop
  deriving DecidableEq, Repr, Inhabited

/-- The name of an interrupt in log lines. -/
def Interrupt.name : Interrupt → String
  | abort => "Abort"
  | nmi => "Nmi"
  | irq => "Irq"
  | brk => "Brk"
  | cop => "Cop"

/-- Where the vectors of one mode lie in bank 0. -/
structure VectorTable where
  cop : UInt16
  brk : UInt16
  abort : UInt16
  nmi : UInt16
  reset : UInt16
  irq : UInt16
  deriving DecidableEq, Repr, Inhabited

/-- The locations in native mode. -/
def VectorTable.native : VectorTable where
  cop := 0xFFE4
  brk := 0xFFE6
  abort := 0xFFE8
  nmi := 0xFFEA
  reset := 0xFFEC
  irq := 0xFFEE

/-- The locations in emulation mode. -/
def VectorTable.emulation : VectorTable where
  cop := 0xFFF4
  brk := 0xFFF6
  abort := 0xFFF8
  nmi := 0xFFFA
  reset := 0xFFFC
  irq := 0xFFFE

/-- The tables of both modes. -/
structure VectorTables where
  native : VectorTable
  emulation : VectorTable
  deriving DecidableEq, Repr, Inhabited

namespace VectorTables

/-- The tables that the processor is built with. -/
def standard : VectorTables :=
  ⟨.native, .emulation⟩

/-- The table of one mode. -/
def forMode (t : VectorTables) (emulation : Bool) : VectorTable :=
  if emulation then t.emulation else t.native

/-- Where a break finds its vector. Emulation mode has none of its own for it. -/
def forBreak (t : VectorTables) (emulation : Bool) : UInt16 :=
  if emulation then t.emulation.irq else t.native.brk

/-- Where an interrupt finds its vector. -/
def location (t : VectorTables) (source : Interrupt) (emulation : Bool) : UInt16 :=
  match source with
  | .abort => (t.forMode emulation).abort
  | .nmi => (t.forMode emulation).nmi
  | .irq => (t.forMode emulation).irq
  | .brk => t.forBreak emulation
  | .cop => (t.forMode emulation).cop

end VectorTables

end W65C816
