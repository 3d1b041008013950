import W65C816.Bus

/-!
# Recorded buses

`Recorded B` is the bus `B` with a list of the accesses made through it, the latest first. Longer
accesses are made one byte at a time, so the record shows every byte. Peeking leaves no record.
-/

namespace W65C816

/-- One byte that crossed a bus. -/
inductive Access where
  | read (address : Address) (value : UInt8)
  | write (address : Address) (value : UInt8)
  deriving DecidableEq, Repr

/-- A bus and the accesses made through it so far, the latest first. -/
structure Recorded (B : Type) where
  bus : B
  accesses : List Access

namespace Recorded

variable {B : Type}

/-- A bus with nothing recorded yet. -/
def fresh (b : B) : Recorded B :=
  ⟨b, []⟩

instance [Bus B] : Bus (Recorded B) where
  read r a :=
    let (v, bus) := Bus.read r.bus a
    (v, ⟨bus, .read a v :: r.accesses⟩)
  write r a v := ⟨Bus.write r.bus a v, .write a v :: r.accesses⟩
  peek r a := Bus.peek r.bus a
  irqActive r := Bus.irqActive r.bus

end Recorded

end W65C816
