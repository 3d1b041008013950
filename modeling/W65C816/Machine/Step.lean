import W65C816.Machine.Event
import W65C816.Machine.Execute

/-!
# Steps

A step serves one interrupt or carries out one instruction, whichever `Core.decide` says, or does
nothing at all.

* `Machine.step` gives the machine afterwards, the number of cycles and the events.
* `Machine.start` is a machine that has just been reset; `Machine.reset` resets one that runs.
-/

namespace W65C816

/-- What an operation on a machine gives: a result, the machine afterwards, and the events that
    happened, the earliest first. -/
structure Outcome (B α : Type) where
  result : α
  machine : Machine B
  events : List Event

namespace Machine

variable {B : Type} [Bus B]

/-! ## Resets -/

/-- Resets the core, which goes to the handler for resets in emulation mode. The accumulator and the
    cycle count survive. -/
def reset (m : Machine B) : Outcome B Unit :=
  let core := m.core.mapRegisters Registers.reset
  let (pc, bus) := Bus.readWordInBank m.bus ⟨0, core.vectors.emulation.reset⟩
  let core :=
    { core with pc, waiting := false, stopped := false, nmiPending := false, abortPending := false }
  ⟨(), ⟨core, bus⟩, [.reset core.programAddress]⟩

/-- A machine on a bus, after its first reset. -/
def start (bus : B) (c : Configuration) : Outcome B Unit :=
  reset ⟨.powerOn c, bus⟩

/-! ## One step -/

/-- True while the request pin or something on the bus asks for an interrupt. -/
def irqLine (m : Machine B) : Bool :=
  m.core.pins.irq || Bus.irqActive m.bus

/-- What an instruction tells about itself, by the cores before and after it. -/
def told (i : Instruction) (before after : Core) : List Event :=
  match i.effect with
  | .interrupt source => [.ofEntry source before after]
  | .stop => [.stopped before.programAddress]
  | _ => []

/-- Serves an interrupt. -/
def serve (m : Machine B) (source : Interrupt) : Outcome B Unit :=
  let before := m.core.acknowledge source
  let ((), after) := (Action.enterInterrupt source before.pc).run { m with core := before }
  ⟨(), after, [.ofEntry source before after.core]⟩

/-- Carries out the instruction at the program address. -/
def advance (m : Machine B) : Outcome B Unit :=
  let before := m.core
  let (opcode, m) := (Action.read before.programAddress).run m
  let traced := if before.trace then [Event.traced (.capture before m.bus)] else []
  let i := Instruction.ofOpcode opcode
  let ((), after) := (Action.execute i).run m
  ⟨(), after, traced ++ told i before after.core⟩

/-- Carrying out an instruction, without the patterns. -/
theorem advance_eq (m : Machine B) :
    m.advance =
      let fetched := (Action.read m.core.programAddress).run m
      let i := Instruction.ofOpcode fetched.1
      let after := ((Action.execute i).run fetched.2).2
      ⟨(), after,
        (if m.core.trace then [Event.traced (.capture m.core fetched.2.bus)] else []) ++
          told i m.core after.core⟩ := rfl

/-- Ends a step that has done something: the panel shows the count, and the result is the number of
    cycles since the count `start`. -/
def account (start : UInt64) (o : Outcome B Unit) : Outcome B UInt64 :=
  let core := o.machine.core.publish
  ⟨core.cycles - start, { o.machine with core }, o.events⟩

/-- Serves one interrupt or carries out one instruction, and gives the number of cycles. It is zero
    when the core can do neither. -/
def step (m : Machine B) : Outcome B UInt64 :=
  let start := m.core.cycles
  match m.core.decide m.irqLine with
  | .idle => ⟨0, m, []⟩
  | .interrupt source => account start (serve { m with core := m.core.wake } source)
  | .instruction => account start (advance { m with core := m.core.wake })

/-! ## Looking around -/

/-- The effective address of the current instruction, taken in some mode. -/
def effectiveAddress (m : Machine B) (mode : Mode) : Outcome B Address :=
  let (place, m) := (Action.locate mode).run m
  ⟨place.address, m, []⟩

/-- Whether the index of the current instruction leaves the page, taken in some mode. A mode that
    does not pay for it is refused. -/
def crossesPage (m : Machine B) (mode : Mode) : Outcome B Bool :=
  if mode.paysForPageCrossing then
    let (place, m) := (Action.locate mode).run m
    ⟨place.crossed, m, []⟩
  else
    ⟨false, m, [.crossingRefused mode]⟩

end Machine

end W65C816
