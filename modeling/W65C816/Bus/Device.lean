import W65C816.Bus.Region

/-!
# Devices

A device claims addresses of a backplane by decoding them to addresses of its own, and serves
single bytes there.

A device may also open a *window* after an access: a run of its bytes that starts at the byte just
accessed and lies at consecutive addresses of the bus. The backplane then takes the rest of a
longer access from the window, without asking again. A device that opens none is always right.

* `Reading` and `Writing` are the answers to an access: the device afterwards and the length of the
  window, and for a reading also the byte.
* `Notice` is what a device or a backplane has to report when it is set up.
* Two kinds of devices on one backplane are one kind: their sum.
-/

namespace W65C816

/-- Something worth telling that happens while a backplane is set up. -/
inductive Notice where
  /-- A region that a device advertised cannot be added. -/
  | regionDropped (start last : UInt32) (error : BusError)
  /-- The contents of a flat memory device do not make a region. -/
  | notFlattened (base : UInt32) (error : BusError)
  deriving DecidableEq, Repr

/-- The words of a notice. -/
def Notice.message : Notice → String
  | regionDropped start last error =>
      s!"dropping flat region ${Hex.addressSpace start}-${Hex.addressSpace last}: " ++
        error.message
  | notFlattened base error =>
      s!"RAM at ${Hex.addressSpace base} cannot be flattened: " ++ error.message

/-- Answer of a device to the reading of a byte. -/
structure Reading (D : Type) where
  value : UInt8
  /-- Length of the window, if one is open. -/
  window : Option Nat
  device : D

/-- Answer of a device to the writing of a byte. -/
structure Writing (D : Type) where
  /-- Length of the window, if one is open. -/
  window : Option Nat
  device : D

/-- What a device hands over when it is attached to a backplane. -/
structure Handover (D : Type) where
  regions : List Region
  device : D
  notices : List Notice

/-- Something that serves bytes at addresses of its own. -/
class Device (D : Type) where
  /-- The address of the device that a bus address stands for, if the device claims it. -/
  decode : D → Address → Option UInt32
  /-- Reads a byte. -/
  read : D → UInt32 → Reading D
  /-- Writes a byte. -/
  write : D → UInt32 → UInt8 → Writing D
  /-- The byte at a position of the window that a reading has opened. -/
  windowGet : D → UInt32 → Nat → UInt8
  /-- Replaces the byte at a position of the window that a writing has opened. -/
  windowPut : D → UInt32 → Nat → UInt8 → D
  /-- Reads a byte without being noticed. A device whose readings have effects shows zero. -/
  peek : D → UInt32 → UInt8 := fun _ _ => 0
  /-- Hands over the regions that the backplane shall serve in place of the device. -/
  handOver : D → Handover D := fun d => ⟨[], d, []⟩
  /-- True while the device asks for an interrupt. -/
  irqActive : D → Bool := fun _ => false

namespace Device

variable {D E : Type}

/-- A device of either of two kinds. -/
instance [Device D] [Device E] : Device (D ⊕ E) where
  decode
    | .inl d, a => decode d a
    | .inr e, a => decode e a
  read
    | .inl d, i => let r := read d i; ⟨r.value, r.window, .inl r.device⟩
    | .inr e, i => let r := read e i; ⟨r.value, r.window, .inr r.device⟩
  write
    | .inl d, i, v => let r := write d i v; ⟨r.window, .inl r.device⟩
    | .inr e, i, v => let r := write e i v; ⟨r.window, .inr r.device⟩
  windowGet
    | .inl d, i, k => windowGet d i k
    | .inr e, i, k => windowGet e i k
  windowPut
    | .inl d, i, k, v => .inl (windowPut d i k v)
    | .inr e, i, k, v => .inr (windowPut e i k v)
  peek
    | .inl d, i => peek d i
    | .inr e, i => peek e i
  handOver
    | .inl d => let h := handOver d; ⟨h.regions, .inl h.device, h.notices⟩
    | .inr e => let h := handOver e; ⟨h.regions, .inr h.device, h.notices⟩
  irqActive
    | .inl d => irqActive d
    | .inr e => irqActive e

/-- Replaces the bytes of an open window from position `k` on. -/
def windowPutAll [Device D] (d : D) (i : UInt32) (k : Nat) : List UInt8 → D
  | [] => d
  | v :: rest => windowPutAll (windowPut d i k v) i (k + 1) rest

end Device

end W65C816
