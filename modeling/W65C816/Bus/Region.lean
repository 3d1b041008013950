import W65C816.Address
import W65C816.Hex
import W65C816.Memory.Bytes

/-!
# Flat regions

A `Region` is a range of consecutive addresses backed by a block of bytes, which a backplane reads
and writes directly. It is not empty and ends inside the address space; both facts are part of the
type.

* `Region.ofBytes?` and `Region.ofRange?` check what they are given. Their failures are values of
  `BusError`, and `BusError.message` gives them words.
* `Region.contains` and `Region.overlaps` compare ranges.
-/

namespace W65C816

/-- Why a region cannot be built or added. -/
inductive BusError where
  /-- The range is empty, runs backwards or leaves the address space. -/
  | invalidRegion (start last : UInt32)
  /-- The bytes do not fill the range exactly. -/
  | sizeMismatch (expected actual : Nat)
  /-- The range shares an address with a region that is there already. -/
  | overlap (start last existingStart existingLast : UInt32)
  deriving DecidableEq, Repr

/-- The words of an error. -/
def BusError.message : BusError → String
  | invalidRegion start last =>
      s!"invalid memory region ${Hex.addressSpace start}-${Hex.addressSpace last}"
  | sizeMismatch expected actual =>
      s!"memory region expects {expected} bytes of backing, got {actual}"
  | overlap start last existingStart existingLast =>
      s!"memory region ${Hex.addressSpace start}-${Hex.addressSpace last} overlaps " ++
        s!"${Hex.addressSpace existingStart}-${Hex.addressSpace existingLast}"

/-- A range of addresses backed by a block of bytes. -/
structure Region where
  start : UInt32
  bytes : ByteArray
  nonempty : 0 < bytes.size
  inSpace : start.toNat + bytes.size ≤ Address.spaceSize

namespace Region

/-- The last address of a region. -/
@[inline] def last (r : Region) : UInt32 :=
  r.start + UInt32.ofNat (r.bytes.size - 1)

/-- The region of the inclusive range from `start` to `last`, which `bytes` must fill exactly. -/
def ofRange? (start last : UInt32) (bytes : ByteArray) : Except BusError Region :=
  if hr : last < start ∨ Address.spaceSize ≤ last.toNat then
    .error (.invalidRegion start last)
  else if hs : bytes.size = last.toNat - start.toNat + 1 then
    have hle : start.toNat ≤ last.toNat :=
      Nat.le_of_not_lt fun h => hr (.inl (UInt32.lt_iff_toNat_lt.mpr h))
    have hlt : last.toNat < Address.spaceSize := Nat.lt_of_not_le fun h => hr (.inr h)
    .ok ⟨start, bytes, by omega, by omega⟩
  else
    .error (.sizeMismatch (last.toNat - start.toNat + 1) bytes.size)

/-- The region that starts at `start` and takes as many addresses as there are bytes. -/
def ofBytes? (start : UInt32) (bytes : ByteArray) : Except BusError Region :=
  if bytes.size = 0 then
    .error (.invalidRegion start start)
  else
    ofRange? start (UInt32.ofNat (min (start.toNat + bytes.size - 1) 0xFFFFFFFF)) bytes

/-- True when the region has the address `a`. -/
@[inline] def contains (r : Region) (a : UInt32) : Bool :=
  r.start ≤ a ∧ a ≤ r.last

/-- True when two regions share an address. -/
def overlaps (r s : Region) : Bool :=
  r.start ≤ s.last ∧ s.start ≤ r.last

/-- Position of an address among the bytes of a region that contains it. -/
def position (r : Region) (a : UInt32) : Nat :=
  a.toNat - r.start.toNat

/-- The byte of a region at an address. -/
def get (r : Region) (a : UInt32) : UInt8 :=
  Bytes.get r.bytes (r.position a)

/-- Number of bytes from an address to the end of the region. -/
def roomAt (r : Region) (a : UInt32) : Nat :=
  r.bytes.size - r.position a

/-- Replaces the bytes from an address on. -/
def put (r : Region) (a : UInt32) (l : List UInt8) : Region where
  start := r.start
  bytes := Bytes.putAll r.bytes (r.position a) l
  nonempty := by rw [Bytes.size_putAll]; exact r.nonempty
  inSpace := by rw [Bytes.size_putAll]; exact r.inSpace

/-- The last address does not wrap, since a region ends in the address space. -/
theorem toNat_last (r : Region) : r.last.toNat = r.start.toNat + r.bytes.size - 1 := by
  have hn := r.nonempty
  have hs := r.inSpace
  rw [Address.spaceSize] at hs
  rw [last, UInt32.toNat_add, UInt32.toNat_ofNat']
  omega

@[simp] theorem start_put (r : Region) (a : UInt32) (l : List UInt8) :
    (r.put a l).start = r.start := rfl

@[simp] theorem last_put (r : Region) (a : UInt32) (l : List UInt8) :
    (r.put a l).last = r.last := by
  rw [last, last, put, Bytes.size_putAll]

/-- A region is known by its start and its bytes. -/
theorem eq_of_bytes {r s : Region} (hstart : r.start = s.start) (hbytes : r.bytes = s.bytes) :
    r = s := by
  cases r
  cases s
  cases hstart
  cases hbytes
  rfl

/-- A block is put byte by byte, from one address to that of the next position. -/
theorem put_cons (r : Region) (a : UInt32) (v : UInt8) (rest : List UInt8) {a' : UInt32}
    (h : r.position a' = r.position a + 1) : r.put a (v :: rest) = (r.put a [v]).put a' rest := by
  refine eq_of_bytes rfl ?_
  show _ = Bytes.putAll (Bytes.put r.bytes (r.position a) v) (r.position a') rest
  rw [h]
  rfl

/-- Bytes that end inside the address space make a region. -/
theorem ofBytes?_eq_ok {start : UInt32} {bytes : ByteArray} (hn : 0 < bytes.size)
    (hs : start.toNat + bytes.size ≤ Address.spaceSize) :
    ∃ r, ofBytes? start bytes = .ok r ∧ r.start = start ∧ r.bytes = bytes := by
  have hle := hs
  rw [Address.spaceSize] at hle
  generalize hl : UInt32.ofNat (min (start.toNat + bytes.size - 1) 0xFFFFFFFF) = last
  have hlast : last.toNat = start.toNat + bytes.size - 1 := by
    rw [← hl, UInt32.toNat_ofNat']
    omega
  have hrange : ¬ (last < start ∨ Address.spaceSize ≤ last.toNat) := by
    rw [UInt32.lt_iff_toNat_lt]
    omega
  have hsize : bytes.size = last.toNat - start.toNat + 1 := by omega
  refine ⟨⟨start, bytes, hn, hs⟩, ?_, rfl, rfl⟩
  rw [ofBytes?, if_neg (Nat.ne_of_gt hn), hl, ofRange?, dif_neg hrange, dif_pos hsize]

/-- Regions that overlap have an address in common. -/
theorem exists_of_overlaps {r s : Region} (h : r.overlaps s = true) :
    ∃ a : Address, r.contains a.value = true ∧ s.contains a.value = true := by
  have value_ofValue : ∀ t : Region, (Address.ofValue t.start).value = t.start := by
    intro t
    have hn := t.nonempty
    have hs := t.inSpace
    apply UInt32.toNat_inj.mp
    rw [Address.toNat_value_ofValue]
    exact Nat.mod_eq_of_lt (by omega)
  have contains_start : ∀ t : Region, t.start ≤ t.last := by
    intro t
    have hn := t.nonempty
    rw [UInt32.le_iff_toNat_le, t.toNat_last]
    omega
  obtain ⟨hrs, hsr⟩ := of_decide_eq_true h
  rcases UInt32.le_total r.start s.start with hle | hle
  · refine ⟨Address.ofValue s.start, ?_, ?_⟩
    · rw [value_ofValue]
      exact decide_eq_true ⟨hle, hsr⟩
    · rw [value_ofValue]
      exact decide_eq_true ⟨UInt32.le_refl _, contains_start s⟩
  · refine ⟨Address.ofValue r.start, ?_, ?_⟩
    · rw [value_ofValue]
      exact decide_eq_true ⟨UInt32.le_refl _, contains_start r⟩
    · rw [value_ofValue]
      exact decide_eq_true ⟨hle, hrs⟩

end Region

end W65C816
