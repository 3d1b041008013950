import W65C816.Bus.Device
import W65C816.Machine.Trace

/-!
# Events

What a machine has to tell about its work. Events are no part of the state: an operation that has
something to tell gives a list of them beside its result.

`Event.level` and `Event.message` are an event as a line of a log.
-/

namespace W65C816

/-- How much an event matters. -/
inductive Level where
  | error
  | warn
  | debug
  | trace
  deriving DecidableEq, Repr

/-- The name of a level in a log. -/
def Level.name : Level → String
  | error => "ERROR"
  | warn => "WARN"
  | debug => "DEBUG"
  | trace => "TRACE"

/-- Something worth telling about the work of a machine. -/
inductive Event where
  /-- A reset has led to the given address. -/
  | reset (start : Address)
  /-- The reset pin has been released. -/
  | resetReleased
  | nmiLatched
  | abortLatched
  /-- An interrupt has been entered through the vector at a place in bank 0. -/
  | interruptEntered (source : Interrupt) (vector : UInt16) (emulation : Bool) (handler : Address)
  /-- The core has been stopped by the instruction at the given address. -/
  | stopped (address : Address)
  /-- An instruction is about to be carried out. -/
  | traced (line : TraceLine)
  /-- A page crossing has been asked for in a mode that has none. -/
  | crossingRefused (mode : Mode)
  /-- Something has happened while the bus was set up. -/
  | noticed (notice : Notice)
  deriving DecidableEq, Repr

namespace Event

/-- How much an event matters. -/
def level : Event → Level
  | reset _ | resetReleased | nmiLatched | abortLatched | interruptEntered _ _ _ _ => .debug
  | stopped _ => .warn
  | traced _ => .trace
  | crossingRefused _ | noticed _ => .error

/-- The words of an event. -/
def message : Event → String
  | reset start => s!"reset, PC={start.text}"
  | resetReleased => "RES released"
  | nmiLatched => "NMI edge latched"
  | abortLatched => "ABORT latched"
  | interruptEntered source vector emulation handler =>
      let mode := if emulation then "emulation" else "native"
      s!"{source.name} entered via ${Hex.word vector} in {mode} mode, handler {handler.text}"
  | stopped address => s!"STP executed at {address.text}, core halted until reset"
  | traced line => line.text
  | crossingRefused mode => s!"page boundary check requested for {mode.name}"
  | noticed notice => notice.message

/-- An event as a line of a log. -/
def line (e : Event) : String :=
  e.level.name ++ " " ++ e.message

/-- The entering of an interrupt, told by the cores before and after it. -/
def ofEntry (source : Interrupt) (before after : Core) : Event :=
  let emulation := before.status.emulation
  .interruptEntered source (before.vectors.location source emulation) emulation
    after.programAddress

end Event

end W65C816
