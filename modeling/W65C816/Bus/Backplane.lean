import W65C816.Bus
import W65C816.Bus.Device

/-!
# The backplane

A `Backplane` is a bus that hands every access to one of the things attached to it:

1. a flat region that has the address, or else
2. the first device, in the order of attachment, that decodes it, or else
3. nobody: then reads give zero and writes are lost.

A longer access is cut into chunks. A chunk is served by whoever answers at its first address and
goes on as long as that region, or the window that the device opens, reaches, but never beyond the
top of the address space, after which comes address 0.

* `Backplane.addRegion` keeps regions apart from each other.
* `Backplane.readChunk` and `Backplane.writeChunk` serve one chunk; `Backplane.readBytes` and
  `Backplane.writeBytes` go from chunk to chunk.
-/

namespace W65C816

/-- A bus with flat regions and devices. -/
structure Backplane (D : Type) where
  regions : List Region
  devices : List D

/-- A piece of a longer reading. It has at least one byte. -/
structure Chunk where
  first : UInt8
  rest : List UInt8

namespace Backplane

variable {D : Type}

/-- The backplane with nothing attached. -/
def empty : Backplane D :=
  ⟨[], []⟩

instance : Inhabited (Backplane D) := ⟨empty⟩

/-! ## Setting up -/

/-- Adds a region, unless it overlaps one that is there. -/
def addRegion (b : Backplane D) (r : Region) : Except BusError (Backplane D) :=
  match b.regions.find? (·.overlaps r) with
  | some existing => .error (.overlap r.start r.last existing.start existing.last)
  | none => .ok { b with regions := b.regions ++ [r] }

/-- Adds those regions of a list that overlap none before them, and reports the others. -/
def addRegions (b : Backplane D) : List Region → Backplane D × List Notice
  | [] => (b, [])
  | r :: rest =>
      match b.addRegion r with
      | .ok b => b.addRegions rest
      | .error e =>
          let (b, notices) := b.addRegions rest
          (b, .regionDropped r.start r.last e :: notices)

/-- Attaches a device behind all others, after taking over the regions it hands over. -/
def attach [Device D] (b : Backplane D) (d : D) : Backplane D × List Notice :=
  let handover := Device.handOver d
  let (b, notices) := b.addRegions handover.regions
  ({ b with devices := b.devices ++ [handover.device] }, handover.notices ++ notices)

/-! ## Chunks -/

/-- Number of addresses from `a` to the top of the address space. -/
@[inline] def roomAbove (a : Address) : Nat :=
  Address.spaceSize - a.value.toNat

/-- How many bytes follow the first one of a chunk that may have `limit` bytes, when whoever
    serves it can give `available`. -/
@[inline] def following (available limit : Nat) : Nat :=
  min available limit - 1

/-- Reads a chunk of at most `limit` bytes from the first device that decodes the address. -/
def readDevices [Device D] (a : Address) (limit : Nat) : List D → Option (Chunk × List D)
  | [] => none
  | d :: rest =>
      match Device.decode d a with
      | some i =>
          let r := Device.read d i
          -- A device without a window serves one byte at a time.
          let more := following (r.window.getD 0) limit
          let tail := (List.range more).map fun k => Device.windowGet r.device i (k + 1)
          some (⟨r.value, tail⟩, r.device :: rest)
      | none =>
          match readDevices a limit rest with
          | some (chunk, rest) => some (chunk, d :: rest)
          | none => none

/-- Reads a chunk of at least one and at most `wanted` bytes. -/
@[inline] def readChunk [Device D] (b : Backplane D) (a : Address) (wanted : Nat) :
    Chunk × Backplane D :=
  let limit := min wanted (roomAbove a)
  match b.regions.find? (·.contains a.value) with
  | some r =>
      let more := following (r.roomAt a.value) limit
      (⟨r.get a.value, Bytes.slice r.bytes (r.position a.value + 1) more⟩, b)
  | none =>
      match readDevices a limit b.devices with
      | some (chunk, devices) => (chunk, { b with devices })
      | none => (⟨0, []⟩, b)

/-- Writes to the first region that has the address. The number counts the bytes written after the
    first. -/
def writeRegions (a : Address) (limit : Nat) (v : UInt8) (rest : List UInt8) :
    List Region → Option (Nat × List Region)
  | [] => none
  | r :: regions =>
      if r.contains a.value then
        let more := following (r.roomAt a.value) limit
        some (more, r.put a.value (v :: rest.take more) :: regions)
      else
        match writeRegions a limit v rest regions with
        | some (more, regions) => some (more, r :: regions)
        | none => none

/-- Writes to the first device that decodes the address. The number counts the bytes written after
    the first. -/
def writeDevices [Device D] (a : Address) (limit : Nat) (v : UInt8) (rest : List UInt8) :
    List D → Option (Nat × List D)
  | [] => none
  | d :: devices =>
      match Device.decode d a with
      | some i =>
          let w := Device.write d i v
          let more := following (w.window.getD 0) limit
          some (more, Device.windowPutAll w.device i 1 (rest.take more) :: devices)
      | none =>
          match writeDevices a limit v rest devices with
          | some (more, devices) => some (more, d :: devices)
          | none => none

/-- Writes `v` and as many bytes of `rest` as belong to the same chunk, and says how many. -/
@[inline] def writeChunk [Device D] (b : Backplane D) (a : Address) (v : UInt8)
    (rest : List UInt8) : Nat × Backplane D :=
  let limit := min (rest.length + 1) (roomAbove a)
  match writeRegions a limit v rest b.regions with
  | some (more, regions) => (more, { b with regions })
  | none =>
      match writeDevices a limit v rest b.devices with
      | some (more, devices) => (more, { b with devices })
      | none => (0, b)

/-! ## Accesses of any length -/

/-- Reads `n` bytes at consecutive addresses, chunk by chunk. -/
def readBytes [Device D] (b : Backplane D) (a : Address) (n : Nat) : List UInt8 × Backplane D :=
  if n = 0 then
    ([], b)
  else
    let (chunk, b) := b.readChunk a n
    -- A chunk has its first byte at least, so less remains after it.
    let taken := chunk.rest.length + 1
    let (rest, b) := b.readBytes (a.onward (UInt32.ofNat taken)) (n - taken)
    (chunk.first :: chunk.rest ++ rest, b)
termination_by n

/-- Writes bytes to consecutive addresses, chunk by chunk. -/
def writeBytes [Device D] (b : Backplane D) (a : Address) : List UInt8 → Backplane D
  | [] => b
  | v :: rest =>
      let (more, b) := b.writeChunk a v rest
      b.writeBytes (a.onward (UInt32.ofNat (more + 1))) (rest.drop more)
termination_by l => l.length
decreasing_by simp only [List.length_drop, List.length_cons]; omega

/-- Writes a block of bytes from `start` on. -/
def load [Device D] (b : Backplane D) (start : UInt32) (bytes : List UInt8) : Backplane D :=
  b.writeBytes (Address.ofValue start) bytes

/-- The byte that the first device shows that decodes the address. -/
def peekDevices [Device D] (a : Address) : List D → UInt8
  | [] => 0
  | d :: rest =>
      match Device.decode d a with
      | some i => Device.peek d i
      | none => peekDevices a rest

instance [Device D] : Bus (Backplane D) where
  read b a :=
    let (chunk, b) := b.readChunk a 1
    (chunk.first, b)
  write b a v := (b.writeChunk a v []).2
  peek b a :=
    match b.regions.find? (·.contains a.value) with
    | some r => r.get a.value
    | none => peekDevices a b.devices
  readWord b a :=
    let (bytes, b) := b.readBytes a 2
    (UInt16.ofNat (littleEndian bytes), b)
  writeWord b a v := b.writeBytes a (wordBytes v)
  readLong b a :=
    let (bytes, b) := b.readBytes a 4
    (UInt32.ofNat (littleEndian bytes), b)
  writeLong b a v := b.writeBytes a (longBytes v)
  readPointer b a :=
    let (bytes, b) := b.readBytes a 3
    (Address.ofValue (UInt32.ofNat (littleEndian bytes)), b)
  irqActive b := b.devices.any Device.irqActive

end Backplane

end W65C816
