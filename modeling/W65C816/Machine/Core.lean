import W65C816.Registers
import W65C816.Vectors

/-!
# The processor core

The state of the processor, apart from the bus: its registers, its pins, the interrupts it has
latched, whether it sleeps, and what it counts and shows.

* `Core.decide` says what the next step is going to do. It is the whole of the priority rules:
  a halted core does nothing, a waiting one needs a reason to wake, ABORT goes before NMI, NMI before
  an interrupt request, and a request before the next instruction.
* The panel is how the outside pauses a run, and lets single steps through while it is paused.
-/

namespace W65C816

/-- Levels of the input pins. A pin that is set is asserted; the ready pin is asserted by default. -/
structure Pins where
  reset : Bool
  ready : Bool
  irq : Bool
  nmi : Bool
  abort : Bool
  deriving DecidableEq, Repr, Inhabited

/-- The levels that let the processor run. -/
def Pins.released : Pins :=
  ⟨false, true, false, false, false⟩

/-- What the outside can see and set while the processor runs. -/
structure Panel where
  /-- The cycle count after the last step that did something. -/
  cycles : UInt64
  paused : Bool
  /-- Whether one step may be made although the run is paused. -/
  stepRequested : Bool
  deriving DecidableEq, Repr, Inhabited

namespace Panel

/-- The panel of a processor that is not paused. -/
def fresh : Panel :=
  ⟨0, false, false⟩

/-- Stops runs before the next step. -/
def pause (p : Panel) : Panel :=
  { p with paused := true }

/-- Lets runs go on. -/
def resume (p : Panel) : Panel :=
  { p with paused := false }

/-- Lets one step through while runs are paused. -/
def requestStep (p : Panel) : Panel :=
  { p with stepRequested := true }

end Panel

/-- What a processor is built with. -/
structure Configuration where
  vectors : VectorTables
  /-- Whether each instruction is traced. -/
  trace : Bool
  deriving DecidableEq, Repr, Inhabited

/-- The usual vectors, and no trace. -/
def Configuration.standard : Configuration :=
  ⟨.standard, false⟩

/-- The state of the processor. -/
structure Core extends Registers where
  /-- Number of cycles so far. -/
  cycles : UInt64
  /-- Whether the core sleeps until an interrupt. -/
  waiting : Bool
  /-- Whether the core sleeps until a reset. -/
  stopped : Bool
  pins : Pins
  /-- Whether an NMI edge has come that is not served yet. -/
  nmiPending : Bool
  /-- Whether an ABORT edge has come that is not served yet. -/
  abortPending : Bool
  vectors : VectorTables
  /-- Whether each instruction is traced. -/
  trace : Bool
  panel : Panel
  deriving DecidableEq, Repr, Inhabited

/-- What a step does. -/
inductive Activity where
  | idle
  | interrupt (source : Interrupt)
  | instruction
  deriving DecidableEq, Repr

namespace Core

/-- The core before its first reset. -/
def powerOn (c : Configuration) : Core where
  toRegisters := .powerOn
  cycles := 0
  waiting := false
  stopped := false
  pins := .released
  nmiPending := false
  abortPending := false
  vectors := c.vectors
  trace := c.trace
  panel := .fresh

/-- True when nothing but a pin or a reset can set the core going. -/
def halted (c : Core) : Bool :=
  c.pins.reset || !c.pins.ready || c.stopped

/-- True when there is a reason to wake, whether or not requests are disabled. -/
def roused (c : Core) (irqLine : Bool) : Bool :=
  c.abortPending || c.nmiPending || irqLine

/-- What the next step does, given the level of the shared request line. -/
def decide (c : Core) (irqLine : Bool) : Activity :=
  if c.halted then .idle
  else if c.waiting && !c.roused irqLine then .idle
  else if c.abortPending then .interrupt .abort
  else if c.nmiPending then .interrupt .nmi
  else if irqLine && !c.status.irqDisable then .interrupt .irq
  else .instruction

/-- Wakes the core. -/
def wake (c : Core) : Core :=
  { c with waiting := false }

/-- Forgets the latched edge of an interrupt that is being served. -/
def acknowledge (c : Core) : Interrupt → Core
  | .abort => { c with abortPending := false }
  | .nmi => { c with nmiPending := false }
  | _ => c

/-- Shows the cycle count on the panel. -/
def publish (c : Core) : Core :=
  { c with panel := { c.panel with cycles := c.cycles } }

/-- Adds cycles to the count. -/
@[inline] def charge (c : Core) (n : UInt64) : Core :=
  { c with cycles := c.cycles + n }

/-- Changes the registers. -/
@[inline] def mapRegisters (f : Registers → Registers) (c : Core) : Core :=
  { c with toRegisters := f c.toRegisters }

end Core

end W65C816
