import W65C816.Machine.Run

/-!
# The console

Everything that can be done to a machine from outside, as data. A `Command` is one such thing, and
`Machine.perform` does it.

* Registers are set the way the processor itself would set them: a narrow index register takes a low
  byte, a confined stack stays on its page, and new widths have their effect at once.
* The NMI and ABORT pins latch an interrupt when they become asserted. Letting go of the reset pin
  resets the machine.
-/

namespace W65C816

/-- An input pin. -/
inductive Pin where
  | reset
  | ready
  | irq
  | nmi
  | abort
  deriving DecidableEq, Repr

/-- Something to do to a machine. -/
inductive Command where
  | step
  | run (budget : UInt64)
  | reset
  | jump (target : Address)
  | setPin (pin : Pin) (level : Bool)
  | setEmulation (emulation : Bool)
  | setStatus (value : UInt8)
  | setA (value : UInt16)
  | setX (value : UInt16)
  | setY (value : UInt16)
  | setD (value : UInt16)
  | setStackPointer (value : UInt16)
  | setDataBank (value : UInt8)
  | setProgramBank (value : UInt8)
  | setProgramCounter (value : UInt16)
  | setTrace (enabled : Bool)
  | pause
  | resume
  | requestStep
  | storeByte (address : Address) (value : UInt8)
  | storeWord (address : Address) (value : UInt16)
  | storeLong (address : Address) (value : UInt32)
  deriving DecidableEq, Repr

namespace Core

/-- Goes to an address, and wakes the core. -/
def jump (c : Core) (target : Address) : Core :=
  { c with pbr := target.bank, pc := target.offset, waiting := false }

/-- Loads the flags from a packed value, at once with their effect on the index registers. -/
def setStatus (c : Core) (v : UInt8) : Core :=
  c.mapRegisters fun r => { r with status := r.status.load v }.narrowIndexes

/-- Enters or leaves emulation mode. -/
def setEmulation (c : Core) (emulation : Bool) : Core :=
  c.mapRegisters (Registers.switchMode · emulation)

/-- Sets X at its width. -/
def setX (c : Core) (v : UInt16) : Core :=
  { c with x := c.indexed v }

/-- Sets Y at its width. -/
def setY (c : Core) (v : UInt16) : Core :=
  { c with y := c.indexed v }

/-- Moves the stack. -/
def setStackPointer (c : Core) (v : UInt16) : Core :=
  { c with stack := c.stack.relocate v }

end Core

namespace Machine

variable {B : Type} [Bus B]

/-- The outcome of doing something to the core alone. -/
def onCore (m : Machine B) (f : Core → Core) : Outcome B Unit :=
  ⟨(), { m with core := f m.core }, []⟩

/-- The outcome of doing something to the bus alone. -/
def onBus (m : Machine B) (f : B → B) : Outcome B Unit :=
  ⟨(), { m with bus := f m.bus }, []⟩

/-- Sets the level of a pin. -/
def setPin (m : Machine B) (pin : Pin) (level : Bool) : Outcome B Unit :=
  let pins := m.core.pins
  match pin with
  | .reset =>
      let o := m.onCore fun c => { c with pins := { pins with reset := level } }
      if pins.reset && !level then
        let o := o.machine.reset
        { o with events := .resetReleased :: o.events }
      else
        o
  | .ready => m.onCore fun c => { c with pins := { pins with ready := level } }
  | .irq => m.onCore fun c => { c with pins := { pins with irq := level } }
  | .nmi =>
      let edge := level && !pins.nmi
      let o := m.onCore fun c =>
        { c with pins := { pins with nmi := level }, nmiPending := edge || c.nmiPending }
      { o with events := if edge then [.nmiLatched] else [] }
  | .abort =>
      let edge := level && !pins.abort
      let o := m.onCore fun c =>
        { c with pins := { pins with abort := level }, abortPending := edge || c.abortPending }
      { o with events := if edge then [.abortLatched] else [] }

/-- An outcome without its result. -/
def silent (o : Outcome B Unit) : Outcome B (Option UInt64) :=
  { o with result := none }

/-- An outcome whose result is a number of cycles. -/
def counted (o : Outcome B UInt64) : Outcome B (Option UInt64) :=
  { o with result := some o.result }

/-- Does what a command says. Steps and runs give a number of cycles. -/
def perform (m : Machine B) : Command → Outcome B (Option UInt64)
  | .step => counted m.step
  | .run budget => counted (m.run budget)
  | .reset => silent m.reset
  | .jump target => silent (m.onCore (Core.jump · target))
  | .setPin pin level => silent (m.setPin pin level)
  | .setEmulation emulation => silent (m.onCore (Core.setEmulation · emulation))
  | .setStatus v => silent (m.onCore (Core.setStatus · v))
  | .setA v => silent (m.onCore fun c => { c with a := v })
  | .setX v => silent (m.onCore (Core.setX · v))
  | .setY v => silent (m.onCore (Core.setY · v))
  | .setD v => silent (m.onCore fun c => { c with d := v })
  | .setStackPointer v => silent (m.onCore (Core.setStackPointer · v))
  | .setDataBank v => silent (m.onCore fun c => { c with dbr := v })
  | .setProgramBank v => silent (m.onCore fun c => { c with pbr := v })
  | .setProgramCounter v => silent (m.onCore fun c => { c with pc := v })
  | .setTrace enabled => silent (m.onCore fun c => { c with trace := enabled })
  | .pause => silent (m.onCore fun c => { c with panel := c.panel.pause })
  | .resume => silent (m.onCore fun c => { c with panel := c.panel.resume })
  | .requestStep => silent (m.onCore fun c => { c with panel := c.panel.requestStep })
  | .storeByte a v => silent (m.onBus (Bus.write · a v))
  | .storeWord a v => silent (m.onBus (Bus.writeWord · a v))
  | .storeLong a v => silent (m.onBus (Bus.writeLong · a v))

end Machine

end W65C816
