import W65C816.Bus.Backplane
import W65C816.Proofs.Simulation

/-!
# Requests

A `Request` is one access to a bus, of a single byte or of a block of any length. It lets one say
"whatever is done to the bus" as a quantifier over lists of requests.

* `Blocks` are the buses that serve blocks; `serve` and `serveAll` answer requests.
* `serveEach` answers a request by single bytes alone. It is what a longer access should amount to.
* `Blocks.Simulation.serveAll`: buses that cannot be told apart by one request cannot be told
  apart by any number of them.
-/

namespace W65C816

/-- A bus that also serves blocks of bytes. -/
class Blocks (B : Type) [Bus B] where
  /-- Reads a block. -/
  readBytes : B → Address → Nat → List UInt8 × B := Bus.readEach
  /-- Writes a block. -/
  writeBytes : B → Address → List UInt8 → B := Bus.writeEach
  /-- Writes a block from the address with the given value on. -/
  load : B → UInt32 → List UInt8 → B := fun b start l => writeBytes b (Address.ofValue start) l

instance : Blocks Memory where
  load := Memory.load

instance {D : Type} [Device D] : Blocks (Backplane D) where
  readBytes := Backplane.readBytes
  writeBytes := Backplane.writeBytes
  load := Backplane.load

instance : Blocks CellMap where
  readBytes m a n := (m.bytes a n, m)
  writeBytes := CellMap.overwrite

/-- One access to a bus. -/
inductive Request where
  | readByte (a : Address)
  | peekByte (a : Address)
  | readWord (a : Address)
  | readLong (a : Address)
  | readPointer (a : Address)
  | readBytes (a : Address) (n : Nat)
  | writeByte (a : Address) (v : UInt8)
  | writeWord (a : Address) (v : UInt16)
  | writeLong (a : Address) (v : UInt32)
  | writeBytes (a : Address) (l : List UInt8)
  | load (start : UInt32) (l : List UInt8)
  deriving DecidableEq, Repr

/-- What a request gives back. -/
inductive Reply where
  | byte (v : UInt8)
  | word (v : UInt16)
  | long (v : UInt32)
  | pointer (a : Address)
  | bytes (l : List UInt8)
  | done
  deriving DecidableEq, Repr

/-- True for the requests that only ask. -/
def Request.isReading : Request → Bool
  | readByte _ | peekByte _ | readWord _ | readLong _ | readPointer _ | readBytes _ _ => true
  | writeByte _ _ | writeWord _ _ | writeLong _ _ | writeBytes _ _ | load _ _ => false

variable {B B' C : Type} [Bus B] [Bus B'] [Bus C]

/-- Answers a request. -/
def serve [Blocks B] (b : B) : Request → Reply × B
  | .readByte a => let (v, b) := Bus.read b a; (.byte v, b)
  | .peekByte a => (.byte (Bus.peek b a), b)
  | .readWord a => let (v, b) := Bus.readWord b a; (.word v, b)
  | .readLong a => let (v, b) := Bus.readLong b a; (.long v, b)
  | .readPointer a => let (v, b) := Bus.readPointer b a; (.pointer v, b)
  | .readBytes a n => let (l, b) := Blocks.readBytes b a n; (.bytes l, b)
  | .writeByte a v => (.done, Bus.write b a v)
  | .writeWord a v => (.done, Bus.writeWord b a v)
  | .writeLong a v => (.done, Bus.writeLong b a v)
  | .writeBytes a l => (.done, Blocks.writeBytes b a l)
  | .load start l => (.done, Blocks.load b start l)

/-- Answers requests one after the other. -/
def serveAll [Blocks B] (b : B) : List Request → List Reply × B
  | [] => ([], b)
  | q :: rest =>
      let (reply, b) := serve b q
      let (replies, b) := serveAll b rest
      (reply :: replies, b)

/-- Answers a request by accesses to single bytes at consecutive addresses. -/
def serveEach (b : B) : Request → Reply × B
  | .readByte a => let (v, b) := Bus.read b a; (.byte v, b)
  | .peekByte a => (.byte (Bus.peek b a), b)
  | .readWord a =>
      let (l, b) := Bus.readEach b a 2
      (.word (UInt16.ofNat (littleEndian l)), b)
  | .readLong a =>
      let (l, b) := Bus.readEach b a 4
      (.long (UInt32.ofNat (littleEndian l)), b)
  | .readPointer a =>
      let (l, b) := Bus.readEach b a 3
      (.pointer (Address.ofValue (UInt32.ofNat (littleEndian l))), b)
  | .readBytes a n => let (l, b) := Bus.readEach b a n; (.bytes l, b)
  | .writeByte a v => (.done, Bus.write b a v)
  | .writeWord a v => (.done, Bus.writeEach b a (wordBytes v))
  | .writeLong a v => (.done, Bus.writeEach b a (longBytes v))
  | .writeBytes a l => (.done, Bus.writeEach b a l)
  | .load start l => (.done, Bus.writeEach b (Address.ofValue start) l)

/-! ## Runs of requests on buses that are alike -/

namespace Blocks

/-- A simulation that holds for blocks as well. -/
structure Simulation [Blocks B] [Blocks B'] (T : B → B' → Prop) : Prop
    extends Bus.Simulation T where
  readBytes : ∀ {b b'} (a : Address) (n : Nat), T b b' →
    Alike T (Blocks.readBytes b a n) (Blocks.readBytes b' a n)
  writeBytes : ∀ {b b'} (a : Address) (l : List UInt8), T b b' →
    T (Blocks.writeBytes b a l) (Blocks.writeBytes b' a l)
  load : ∀ {b b'} (start : UInt32) (l : List UInt8), T b b' →
    T (Blocks.load b start l) (Blocks.load b' start l)

namespace Simulation

variable [Blocks B] [Blocks B'] {T : B → B' → Prop}

/-- Each request is one access, for which the simulation has a field. -/
theorem serve (h : Simulation T) {b : B} {b' : B'} (hT : T b b') (q : Request) :
    Alike T (serve b q) (serve b' q) := by
  -- Requests that ask give their answer a name. Those that write give none.
  cases q with
  | readByte a =>
      obtain ⟨he, hT₁⟩ := h.read a hT
      exact ⟨congrArg Reply.byte he, hT₁⟩
  | peekByte a => exact ⟨congrArg Reply.byte (h.peek a hT), hT⟩
  | readWord a =>
      obtain ⟨he, hT₁⟩ := h.readWord a hT
      exact ⟨congrArg Reply.word he, hT₁⟩
  | readLong a =>
      obtain ⟨he, hT₁⟩ := h.readLong a hT
      exact ⟨congrArg Reply.long he, hT₁⟩
  | readPointer a =>
      obtain ⟨he, hT₁⟩ := h.readPointer a hT
      exact ⟨congrArg Reply.pointer he, hT₁⟩
  | readBytes a n =>
      obtain ⟨he, hT₁⟩ := h.readBytes a n hT
      exact ⟨congrArg Reply.bytes he, hT₁⟩
  | writeByte a v => exact ⟨rfl, h.write a v hT⟩
  | writeWord a v => exact ⟨rfl, h.writeWord a v hT⟩
  | writeLong a v => exact ⟨rfl, h.writeLong a v hT⟩
  | writeBytes a l => exact ⟨rfl, h.writeBytes a l hT⟩
  | load start l => exact ⟨rfl, h.load start l hT⟩

/-- By induction on the requests. The buses that the first one leaves behind are related again. -/
theorem serveAll (h : Simulation T) {b : B} {b' : B'} (hT : T b b') (qs : List Request) :
    Alike T (serveAll b qs) (serveAll b' qs) := by
  induction qs generalizing b b' with
  | nil => exact ⟨rfl, hT⟩
  | cons q rest ih =>
      obtain ⟨he, hT₁⟩ := h.serve hT q
      obtain ⟨hes, hT₂⟩ := ih hT₁
      exact ⟨congrArg₂ List.cons he hes, hT₂⟩

end Simulation

end Blocks

/-! ## Flat memory -/

/-- Also with blocks, flat memory cannot be told from the map of its cells. -/
theorem Memory.blocksSimulation :
    Blocks.Simulation fun (m : Memory) (c : CellMap) => m.cells = c where
  toSimulation := Memory.simulation
  readBytes {m} _ a n := by
    rintro rfl
    have he : Bus.readEach m a n = (m.cells.bytes a n, m) := readEach_eq m a n
    exact ⟨congrArg Prod.fst he, congrArg (fun p => p.2.cells) he⟩
  writeBytes a l := by
    rintro rfl
    exact cells_writeEach _ a l
  load start l := by
    rintro rfl
    exact cells_writeEach _ _ l

end W65C816
