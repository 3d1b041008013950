import W65C816.Bus.Device

/-!
# Memory chips

* `Ram` can be read and written, and opens a window either way. A *flat* RAM hands its contents
  over to the backplane when it is attached, and from then on claims nothing.
* `Rom` can only be read. It opens a window for readings and ignores writes.
* `Chip` is one or the other.
-/

namespace W65C816

/-- The position of a bus address in a block that lies at `base`, if the block reaches there. -/
@[inline] def locate (base : UInt32) (size : Nat) (a : Address) : Option UInt32 :=
  if base ≤ a.value ∧ (a.value - base).toNat < size then some (a.value - base) else none

/-- Memory that can be read and written. -/
structure Ram where
  base : UInt32
  bytes : ByteArray
  /-- Whether the contents go to the backplane when the chip is attached. -/
  flat : Bool

namespace Ram

/-- A chip of `size` zeros at `base`. -/
def ofSize (base : UInt32) (size : Nat) (flat : Bool) : Ram :=
  ⟨base, Bytes.replicate size 0, flat⟩

/-- Number of bytes that the chip serves itself. -/
@[inline] def size (r : Ram) : Nat :=
  r.bytes.size

/-- Writes a block into the chip. What lies beyond its end is dropped. -/
def load (r : Ram) (offset : Nat) (l : List UInt8) : Ram :=
  { r with bytes := Bytes.putAll r.bytes offset l }

instance : Device Ram where
  decode r a := locate r.base r.size a
  read r i := ⟨Bytes.get r.bytes i.toNat, some (r.size - i.toNat), r⟩
  write r i v :=
    let window := r.size - i.toNat
    ⟨some window, { r with bytes := Bytes.put r.bytes i.toNat v }⟩
  windowGet r i k := Bytes.get r.bytes (i.toNat + k)
  windowPut r i k v := { r with bytes := Bytes.put r.bytes (i.toNat + k) v }
  peek r i := Bytes.get r.bytes i.toNat
  handOver r :=
    if !r.flat || r.size == 0 then
      ⟨[], r, []⟩
    else
      let emptied : Ram := { r with bytes := ByteArray.empty }
      match Region.ofBytes? r.base r.bytes with
      | .ok region => ⟨[region], emptied, []⟩
      | .error e => ⟨[], emptied, [.notFlattened r.base e]⟩

end Ram

/-- Memory that can only be read. -/
structure Rom where
  base : UInt32
  bytes : ByteArray

namespace Rom

/-- Number of bytes on the chip. -/
@[inline] def size (r : Rom) : Nat :=
  r.bytes.size

instance : Device Rom where
  decode r a := locate r.base r.size a
  read r i := ⟨Bytes.get r.bytes i.toNat, some (r.size - i.toNat), r⟩
  write r _ _ := ⟨none, r⟩
  windowGet r i k := Bytes.get r.bytes (i.toNat + k)
  windowPut r _ _ _ := r
  peek r i := Bytes.get r.bytes i.toNat

end Rom

/-- A memory chip of either kind. -/
abbrev Chip := Ram ⊕ Rom

end W65C816
