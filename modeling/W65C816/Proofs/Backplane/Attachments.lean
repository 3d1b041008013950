import W65C816.Bus.Backplane
import W65C816.Bus.Chip
import W65C816.Proofs.Cells
import W65C816.Proofs.FirstMatch

/-!
# What is attached to a backplane

A backplane with memory chips treats flat regions, RAM and ROM alike: each is a block of bytes at
some address, and the first one that has an address answers there. An `Attachment` is any of them.

* `Backplane.attachments` is the list in order of precedence, and `Backplane.server` the first
  attachment that has an address.
* `Backplane.readChunk_eq`, `Backplane.fst_writeChunk` and `Backplane.attachments_writeChunk` say
  what one chunk of an access does in these terms. Nothing else looks into regions and chips.
* `Backplane.cells` is the map of cells that accesses to single bytes show, whatever the layout:
  `Backplane.read_eq` and `Backplane.cells_write`.
-/

namespace W65C816

/-- A block of bytes on a backplane: a flat region or a memory chip. -/
inductive Attachment where
  | region (r : Region)
  | chip (c : Chip)

namespace Attachment

/-- The value of the first address. -/
def base : Attachment → UInt32
  | region r => r.start
  | chip (.inl r) => r.base
  | chip (.inr r) => r.base

/-- The bytes that it holds. -/
def bytes : Attachment → ByteArray
  | region r => r.bytes
  | chip (.inl r) => r.bytes
  | chip (.inr r) => r.bytes

/-- True unless it can only be read. -/
def writable : Attachment → Bool
  | region _ => true
  | chip (.inl _) => true
  | chip (.inr _) => false

/-- True when it has the address `a`. -/
def holds (x : Attachment) (a : Address) : Bool :=
  x.base.toNat ≤ a.value.toNat ∧ a.value.toNat < x.base.toNat + x.bytes.size

/-- Position of an address among its bytes. -/
def position (x : Attachment) (a : Address) : Nat :=
  a.value.toNat - x.base.toNat

/-- The byte at an address. -/
def get (x : Attachment) (a : Address) : UInt8 :=
  Bytes.get x.bytes (x.position a)

/-- The cell at an address. -/
def cell (x : Attachment) (a : Address) : Cell :=
  ⟨x.get a, x.writable⟩

/-- Replaces the bytes of a chip from an address on, if they can be written. -/
def putChip (a : Address) (l : List UInt8) : Chip → Chip
  | .inl r =>
      .inl { r with bytes := Bytes.putAll r.bytes (a.value.toNat - r.base.toNat) l }
  | .inr r => .inr r

/-- Replaces the bytes from an address on, if they can be written. -/
def put (x : Attachment) (a : Address) (l : List UInt8) : Attachment :=
  match x with
  | region r => region (r.put a.value l)
  | chip c => chip (putChip a l c)

/-- Number of bytes from an address to its end. -/
def room (x : Attachment) (a : Address) : Nat :=
  x.bytes.size - x.position a

/-- Number of bytes from an address on that can be written in one go. -/
def window (x : Attachment) (a : Address) : Nat :=
  if x.writable then x.room a else 0

/-- The chunk of at most `limit` bytes that a reading takes from an address on. -/
def chunk (x : Attachment) (a : Address) (limit : Nat) : Chunk :=
  ⟨x.get a, Bytes.slice x.bytes (x.position a + 1) (Backplane.following (x.room a) limit)⟩

/-! ## Reading and replacing bytes -/

theorem holds_iff {x : Attachment} {a : Address} :
    x.holds a = true ↔
      x.base.toNat ≤ a.value.toNat ∧ a.value.toNat < x.base.toNat + x.bytes.size := by
  rw [holds, decide_eq_true_iff]

/-- Writing is putting bytes at a position, and a ROM does not take them. -/
theorem bytes_put (x : Attachment) (a : Address) (l : List UInt8) :
    (x.put a l).bytes =
      if x.writable then Bytes.putAll x.bytes (x.position a) l else x.bytes := by
  rcases x with r | r | r
  · rfl
  · rfl
  · rfl

@[simp] theorem base_put (x : Attachment) (a : Address) (l : List UInt8) :
    (x.put a l).base = x.base := by
  rcases x with r | r | r
  · rfl
  · rfl
  · rfl

@[simp] theorem writable_put (x : Attachment) (a : Address) (l : List UInt8) :
    (x.put a l).writable = x.writable := by
  rcases x with r | r | r
  · rfl
  · rfl
  · rfl

@[simp] theorem size_put (x : Attachment) (a : Address) (l : List UInt8) :
    (x.put a l).bytes.size = x.bytes.size := by
  rw [bytes_put]
  by_cases h : x.writable = true
  · rw [if_pos h, Bytes.size_putAll]
  · rw [if_neg h]

/-- Writing does not move a block. -/
@[simp] theorem holds_put (x : Attachment) (a : Address) (l : List UInt8) (a' : Address) :
    (x.put a l).holds a' = x.holds a' := by
  rw [holds, holds, base_put, size_put]

@[simp] theorem position_put (x : Attachment) (a : Address) (l : List UInt8) (a' : Address) :
    (x.put a l).position a' = x.position a' := by
  rw [position, position, base_put]

theorem put_nil (x : Attachment) (a : Address) : x.put a [] = x := by
  rcases x with r | r | r
  · rfl
  · rfl
  · rfl

theorem put_of_not_writable {x : Attachment} (h : ¬ x.writable = true) (a : Address)
    (l : List UInt8) : x.put a l = x := by
  rcases x with r | r | r
  · exact absurd rfl h
  · exact absurd rfl h
  · rfl

theorem position_onward {x : Attachment} {a : Address} (h : x.holds a = true) (n : Nat)
    (hn : a.value.toNat + n < Address.spaceSize) :
    x.position (a.onward (UInt32.ofNat n)) = x.position a + n := by
  obtain ⟨hb, -⟩ := holds_iff.mp h
  rw [position, position, Address.toNat_value_onward_of_lt hn]
  omega

theorem position_region (r : Region) (a : Address) :
    (region r).position a = r.position a.value := rfl

/-- What can be written in one go reaches to the end of the block. -/
theorem window_of_writable {x : Attachment} (h : x.writable = true) (a : Address) :
    x.window a = x.room a :=
  if_pos h

theorem window_region (r : Region) (a : Address) : (region r).window a = r.roomAt a.value :=
  (window_of_writable rfl a).trans rfl

/-- A block takes bytes one after the other. -/
theorem put_cons {x : Attachment} {a : Address} (h : x.holds a = true)
    (hn : a.value.toNat + 1 < Address.spaceSize) (v : UInt8) (rest : List UInt8) :
    x.put a (v :: rest) = (x.put a [v]).put (a.onward 1) rest := by
  have hp : x.position (a.onward 1) = x.position a + 1 := position_onward h 1 hn
  rcases x with r | r | r
  · have hq : r.position (a.onward 1).value = r.position a.value + 1 := by
      rw [← position_region, ← position_region]
      exact hp
    exact congrArg region (r.put_cons a.value v rest hq)
  · exact congrArg (fun i => chip (.inl { r with
      bytes := Bytes.putAll (Bytes.put r.bytes (position (chip (.inl r)) a) v) i rest })) hp.symm
  · rfl

/-- A byte that is written is there, and the others are what they were. -/
theorem cell_put {x : Attachment} {a a' : Address} (h : x.holds a = true)
    (h' : x.holds a' = true) (v : UInt8) :
    (x.put a [v]).cell a' = if a = a' then (x.cell a').write v else x.cell a' := by
  by_cases hw : x.writable = true
  · obtain ⟨hb, hlt⟩ := holds_iff.mp h
    obtain ⟨hb', hlt'⟩ := holds_iff.mp h'
    have hp : x.position a < x.bytes.size := by rw [position]; omega
    have hget : (x.put a [v]).get a' =
        if x.position a = x.position a' ∧ x.position a < x.bytes.size then v else x.get a' := by
      rw [get, bytes_put, if_pos hw, position_put]
      exact Bytes.get_put ..
    rw [cell, writable_put, hget]
    by_cases ha : a = a'
    · rw [if_pos ⟨congrArg x.position ha, hp⟩, if_pos ha, Cell.write, cell, if_pos hw, hw]
    -- Two addresses of one block have different positions, since both are counted from its base.
    · have hne : x.position a ≠ x.position a' := by
        intro he
        apply ha
        apply Address.value_inj
        apply UInt32.toNat_inj.mp
        rw [position, position] at he
        omega
      rw [if_neg (not_and_of_not_left _ hne), if_neg ha, cell]
  · rw [put_of_not_writable hw, Cell.write, cell, if_neg hw]
    exact (ite_self _).symm

/-! ## A RAM that is new -/

theorem base_ofSize (base : UInt32) (size : Nat) (flat : Bool) :
    (chip (.inl (Ram.ofSize base size flat))).base = base := rfl

theorem size_ofSize (base : UInt32) (size : Nat) (flat : Bool) :
    (chip (.inl (Ram.ofSize base size flat))).bytes.size = size :=
  Bytes.size_replicate size 0

/-- A new RAM has the addresses from its base on, as many as its size. -/
theorem holds_ofSize (base : UInt32) (size : Nat) (flat : Bool) (a : Address) :
    (chip (.inl (Ram.ofSize base size flat))).holds a = true ↔
      base.toNat ≤ a.value.toNat ∧ a.value.toNat < base.toNat + size := by
  rw [holds_iff, base_ofSize, size_ofSize]

/-- A new RAM is zero, and so is what lies outside it. -/
theorem get_ofSize (base : UInt32) (size : Nat) (flat : Bool) (a : Address) :
    (chip (.inl (Ram.ofSize base size flat))).get a = 0 :=
  (Bytes.get_replicate size 0 _).trans (ite_self 0)

/-! ## Regions and chips as attachments -/

/-- A region has an address by comparing it with the first and the last one. This comes to the same,
    as no region goes beyond the address space. -/
theorem holds_region (r : Region) (a : Address) : (region r).holds a = r.contains a.value := by
  have hn := r.nonempty
  refine decide_eq_decide.mpr ?_
  rw [UInt32.le_iff_toNat_le, UInt32.le_iff_toNat_le, r.toNat_last]
  show r.start.toNat ≤ _ ∧ _ < r.start.toNat + r.bytes.size ↔ _
  omega

/-- The position that a chip is told is a difference of words, which does not wrap for an address it
    has. -/
theorem toNat_sub_base {x : Attachment} {a : Address} (h : x.holds a = true) :
    (a.value - x.base).toNat = x.position a :=
  UInt32.toNat_sub_of_le _ _ (UInt32.le_iff_toNat_le.mpr (holds_iff.mp h).1)

/-- A chip decodes the addresses that it has. -/
theorem locate_eq (x : Attachment) (a : Address) :
    locate x.base x.bytes.size a = if x.holds a then some (a.value - x.base) else none := by
  have hiff : x.base ≤ a.value ∧ (a.value - x.base).toNat < x.bytes.size ↔ x.holds a = true := by
    constructor
    · rintro ⟨hb, hlt⟩
      rw [UInt32.toNat_sub_of_le _ _ hb] at hlt
      have hle := UInt32.le_iff_toNat_le.mp hb
      exact holds_iff.mpr ⟨hle, by omega⟩
    · intro h
      obtain ⟨hb, hlt⟩ := holds_iff.mp h
      refine ⟨UInt32.le_iff_toNat_le.mpr hb, ?_⟩
      rw [toNat_sub_base h, position]
      omega
  rw [locate]
  exact if_congr hiff rfl rfl

theorem decode_chip (c : Chip) (a : Address) :
    Device.decode c a = if (chip c).holds a then some (a.value - (chip c).base) else none := by
  rcases c with r | r
  · exact locate_eq (chip (.inl r)) a
  · exact locate_eq (chip (.inr r)) a

/-- What a chip answers to a reading: its byte, a window to its end and itself unchanged. -/
theorem read_chip {c : Chip} {a : Address} (h : (chip c).holds a = true) :
    Device.read c (a.value - (chip c).base) =
      ⟨(chip c).get a, some ((chip c).room a), c⟩ := by
  have hp := toNat_sub_base h
  rcases c with r | r
  · show (⟨Bytes.get r.bytes _, some (r.bytes.size - _), .inl r⟩ : Reading Chip) = _
    rw [hp]
    rfl
  · show (⟨Bytes.get r.bytes _, some (r.bytes.size - _), .inr r⟩ : Reading Chip) = _
    rw [hp]
    rfl

theorem windowGet_chip {c : Chip} {a : Address} (h : (chip c).holds a = true) (k : Nat) :
    Device.windowGet c (a.value - (chip c).base) k =
      Bytes.get (chip c).bytes ((chip c).position a + k) := by
  rw [← toNat_sub_base h]
  rcases c with r | r
  · rfl
  · rfl

theorem putChip_ram (r : Ram) (a : Address) (l : List UInt8) :
    putChip a l (.inl r) =
      .inl { r with bytes := Bytes.putAll r.bytes ((chip (.inl r)).position a) l } := rfl

/-- Bytes that are put into a window one by one are put in one block. -/
theorem windowPutAll_ram (r : Ram) (i : UInt32) (k : Nat) (l : List UInt8) :
    Device.windowPutAll (.inl r : Chip) i k l =
      .inl { r with bytes := Bytes.putAll r.bytes (i.toNat + k) l } := by
  induction l generalizing r k with
  | nil => rfl
  | cons v rest ih => exact ih { r with bytes := Bytes.put r.bytes (i.toNat + k) v } (k + 1)

theorem write_ram (r : Ram) (i : UInt32) (v : UInt8) :
    Device.write (.inl r : Chip) i v =
      ⟨some (r.size - i.toNat), .inl { r with bytes := Bytes.put r.bytes i.toNat v }⟩ := rfl

/-- The window that a chip opens when it is written to. -/
theorem window_write {c : Chip} {a : Address} (h : (chip c).holds a = true) (v : UInt8) :
    (Device.write c (a.value - (chip c).base) v).window.getD 0 = (chip c).window a := by
  have hp := toNat_sub_base h
  generalize a.value - (chip c).base = i at hp ⊢
  rcases c with r | r
  · rw [write_ram, Option.getD_some, window_of_writable rfl, room, ← hp]
    rfl
  · exact (if_neg Bool.false_ne_true).symm

/-- A chip that is written to takes as much of a block as its window is long. -/
theorem windowPutAll_write {c : Chip} {a : Address} (h : (chip c).holds a = true) (limit : Nat)
    (v : UInt8) (rest : List UInt8) :
    Device.windowPutAll (Device.write c (a.value - (chip c).base) v).device
        (a.value - (chip c).base) 1
        (rest.take (Backplane.following ((chip c).window a) limit)) =
      putChip a (v :: rest.take (Backplane.following ((chip c).window a) limit)) c := by
  have hp := toNat_sub_base h
  generalize a.value - (chip c).base = i at hp ⊢
  rcases c with r | r
  · generalize Backplane.following _ limit = more
    rw [putChip_ram, Bytes.putAll, ← hp]
    exact windowPutAll_ram { r with bytes := Bytes.put r.bytes i.toNat v } i 1 (rest.take more)
  -- A ROM opens no window, so nothing follows the first byte.
  · have hwindow : (chip (.inr r)).window a = 0 := if_neg Bool.false_ne_true
    have hmore : Backplane.following 0 limit = 0 := by
      rw [Backplane.following, Nat.zero_min]
    rw [hwindow, hmore]
    rfl

end Attachment

namespace Backplane

open Attachment

/-- Everything attached, those that answer first first. -/
def attachments (b : Backplane Chip) : List Attachment :=
  b.regions.map region ++ b.devices.map chip

/-- The attachment that answers at an address. -/
def server (b : Backplane Chip) (a : Address) : Option Attachment :=
  b.attachments.find? (·.holds a)

/-- The map of cells that accesses to single bytes show. -/
def cells (b : Backplane Chip) : CellMap := fun a =>
  match b.server a with
  | some x => x.cell a
  | none => Cell.absent

/-! ## The order of precedence -/

/-- The regions are the attachments that are regions. -/
theorem regions_eq (b : Backplane Chip) :
    b.regions = b.attachments.filterMap fun | region r => some r | chip _ => none := by
  rw [attachments, List.filterMap_append, List.filterMap_map, List.filterMap_map]
  refine ((congrArg₂ (· ++ ·) ?_ ?_).trans (List.append_nil _)).symm
  · exact List.filterMap_some
  · exact List.filterMap_eq_nil_iff.mpr fun _ _ => rfl

/-- The devices are the attachments that are chips. -/
theorem devices_eq (b : Backplane Chip) :
    b.devices = b.attachments.filterMap fun | region _ => none | chip c => some c := by
  rw [attachments, List.filterMap_append, List.filterMap_map, List.filterMap_map]
  refine ((congrArg₂ (· ++ ·) ?_ ?_).trans (List.nil_append _)).symm
  · exact List.filterMap_eq_nil_iff.mpr fun _ _ => rfl
  · exact List.filterMap_some

/-- A backplane is known by what is attached to it. -/
theorem attachments_inj {b b' : Backplane Chip} (h : b.attachments = b'.attachments) : b = b' := by
  have hr : b.regions = b'.regions := by rw [regions_eq b, regions_eq b', h]
  have hd : b.devices = b'.devices := by rw [devices_eq b, devices_eq b', h]
  cases b with
  | mk regions devices =>
      cases b' with
      | mk regions' devices' =>
          cases hr
          cases hd
          rfl

/-- The first region that has an address, as an attachment. -/
theorem find?_regions (b : Backplane Chip) (a : Address) :
    (b.regions.map region).find? (·.holds a) =
      (b.regions.find? (·.contains a.value)).map region := by
  rw [List.find?_map]
  refine congrArg (fun p => (b.regions.find? p).map region) (funext fun r => ?_)
  exact holds_region r a

/-- Regions come before devices. -/
theorem server_of_region {b : Backplane Chip} {a : Address} {r : Region}
    (h : b.regions.find? (·.contains a.value) = some r) : b.server a = some (region r) := by
  rw [server, attachments, List.find?_append, find?_regions, h]
  rfl

/-- Where there is no region, the first device that decodes the address answers. -/
theorem server_of_no_region {b : Backplane Chip} {a : Address}
    (h : b.regions.find? (·.contains a.value) = none) :
    b.server a = (b.devices.find? fun c => (chip c).holds a).map chip := by
  rw [server, attachments, List.find?_append, find?_regions, h, List.find?_map]
  rfl

theorem holds_of_server {b : Backplane Chip} {a : Address} {x : Attachment}
    (h : b.server a = some x) : x.holds a = true :=
  List.find?_some (p := fun x : Attachment => x.holds a) h

/-! ## One chunk -/

/-- A chunk of a chip is its first byte and those that follow in the window. -/
theorem readDevices_eq (a : Address) (limit : Nat) (ds : List Chip) :
    readDevices a limit ds =
      (ds.find? fun c => (chip c).holds a).map fun c => ((chip c).chunk a limit, ds) := by
  induction ds with
  | nil => rfl
  | cons c ds ih =>
      by_cases hc : (chip c).holds a = true
      · rw [List.find?_cons_of_pos (by exact hc), readDevices, decode_chip, if_pos hc]
        dsimp only
        rw [read_chip hc, Option.map_some, chunk, Bytes.slice, Option.getD_some]
        refine congrArg (fun l => some (Chunk.mk ((chip c).get a) l, c :: ds)) ?_
        refine List.map_congr_left fun k _ => ?_
        rw [windowGet_chip hc, Nat.add_assoc, Nat.add_comm 1 k]
      · rw [List.find?_cons_of_neg (by exact hc), readDevices, decode_chip, if_neg hc, ih]
        cases ds.find? fun c => (chip c).holds a with
        | none => rfl
        | some y => rfl

/-- A chunk is read from whoever answers at its first address, and changes nothing. -/
theorem readChunk_eq (b : Backplane Chip) (a : Address) (wanted : Nat) :
    b.readChunk a wanted =
      match b.server a with
      | some x => (x.chunk a (min wanted (roomAbove a)), b)
      | none => (⟨0, []⟩, b) := by
  rw [readChunk]
  cases hr : b.regions.find? (·.contains a.value) with
  | some r =>
      rw [server_of_region hr]
      rfl
  | none =>
      rw [server_of_no_region hr]
      dsimp only
      rw [readDevices_eq]
      cases b.devices.find? fun c => (chip c).holds a with
      | none => rfl
      | some c => rfl

/-- The regions take a chunk if one of them has its first address, and then only the first of them
    changes. -/
theorem writeRegions_eq (a : Address) (limit : Nat) (v : UInt8) (rest : List UInt8)
    (rs : List Region) :
    writeRegions a limit v rest rs =
      (rs.find? (·.contains a.value)).map fun r =>
        (following (r.roomAt a.value) limit,
          updateFirst (·.contains a.value)
            (·.put a.value (v :: rest.take (following (r.roomAt a.value) limit))) rs) := by
  induction rs with
  | nil => rfl
  | cons r rs ih =>
      by_cases hr : r.contains a.value = true
      · rw [writeRegions, if_pos hr, List.find?_cons_of_pos (by exact hr), Option.map_some,
          updateFirst, if_pos hr]
      · rw [writeRegions, if_neg hr, List.find?_cons_of_neg (by exact hr), ih]
        cases rs.find? (·.contains a.value) with
        | none => rfl
        | some s =>
            rw [Option.map_some, Option.map_some, updateFirst, if_neg hr]

theorem writeDevices_eq (a : Address) (limit : Nat) (v : UInt8) (rest : List UInt8)
    (ds : List Chip) :
    writeDevices a limit v rest ds =
      (ds.find? fun c => (chip c).holds a).map fun c =>
        (following ((chip c).window a) limit,
          updateFirst (fun c => (chip c).holds a)
            (putChip a (v :: rest.take (following ((chip c).window a) limit))) ds) := by
  -- Devices are asked in order, so the induction is on the list, and its head either decodes the
  -- address or is passed over.
  induction ds with
  | nil => rfl
  | cons c ds ih =>
      by_cases hc : (chip c).holds a = true
      · rw [writeDevices, decode_chip, if_pos hc, List.find?_cons_of_pos (by exact hc),
          Option.map_some, updateFirst, if_pos hc]
        dsimp only
        rw [window_write hc, windowPutAll_write hc]
      · rw [writeDevices, decode_chip, if_neg hc, List.find?_cons_of_neg (by exact hc), ih]
        cases ds.find? fun c => (chip c).holds a with
        | none => rfl
        | some y => rw [Option.map_some, Option.map_some, updateFirst, if_neg hc]

/-- How many bytes follow the first one of a chunk that is written. -/
theorem fst_writeChunk (b : Backplane Chip) (a : Address) (v : UInt8) (rest : List UInt8) :
    (b.writeChunk a v rest).1 =
      match b.server a with
      | some x => following (x.window a) (min (rest.length + 1) (roomAbove a))
      | none => 0 := by
  rw [writeChunk, writeRegions_eq]
  generalize min (rest.length + 1) (roomAbove a) = limit
  cases hr : b.regions.find? (·.contains a.value) with
  | some r =>
      rw [server_of_region hr, Option.map_some]
      dsimp only
      rw [window_region]
  | none =>
      rw [server_of_no_region hr, Option.map_none]
      dsimp only
      rw [writeDevices_eq]
      cases b.devices.find? fun c => (chip c).holds a with
      | none => rfl
      | some c => dsimp only [Option.map_some]

/-- A chunk that is written changes whoever answers at its first address, and nobody else. -/
theorem attachments_writeChunk (b : Backplane Chip) (a : Address) (v : UInt8)
    (rest : List UInt8) :
    (b.writeChunk a v rest).2.attachments =
      updateFirst (·.holds a) (·.put a (v :: rest.take (b.writeChunk a v rest).1))
        b.attachments := by
  rw [fst_writeChunk, writeChunk, writeRegions_eq]
  generalize min (rest.length + 1) (roomAbove a) = limit
  cases hr : b.regions.find? (·.contains a.value) with
  | some r =>
      have hfind : (b.regions.map region).find? (·.holds a) = some (region r) := by
        rw [find?_regions, hr]
        rfl
      rw [server_of_region hr, Option.map_some]
      dsimp only
      -- A region that takes the chunk is found before any device is asked.
      rw [attachments, attachments, updateFirst_append_left _ _ hfind, window_region]
      refine congrArg (· ++ b.devices.map chip) (updateFirst_map region ?_ ?_ b.regions)
      · intro s
        exact (holds_region s a).symm
      · intro s
        rfl
  | none =>
      have hfind : (b.regions.map region).find? (·.holds a) = none := by
        rw [find?_regions, hr]
        rfl
      rw [server_of_no_region hr, Option.map_none]
      dsimp only
      -- No region has the address, so the update passes over all of them.
      rw [writeDevices_eq, attachments, attachments, updateFirst_append_right _ _ hfind]
      cases hc : b.devices.find? fun c => (chip c).holds a with
      | none =>
          refine congrArg (b.regions.map region ++ ·) (updateFirst_of_none _ ?_).symm
          rw [List.find?_map]
          exact congrArg (Option.map chip) hc
      | some c =>
          refine congrArg (b.regions.map region ++ ·) (updateFirst_map chip ?_ ?_ b.devices)
          · intro d
            rfl
          · intro d
            rfl

/-! ## Single bytes -/

/-- Reading a byte shows the cell and changes nothing. -/
theorem read_eq (b : Backplane Chip) (a : Address) :
    Bus.read b a = ((b.cells a).value, b) := by
  show (let (chunk, b) := b.readChunk a 1; (chunk.first, b)) = _
  rw [readChunk_eq, cells]
  cases b.server a with
  | none => rfl
  | some x => rfl

theorem peekDevices_eq (a : Address) (ds : List Chip) :
    peekDevices a ds =
      match (ds.find? fun c => (chip c).holds a).map chip with
      | some x => x.get a
      | none => 0 := by
  induction ds with
  | nil => rfl
  | cons c ds ih =>
      by_cases hc : (chip c).holds a = true
      · have hp := toNat_sub_base hc
        rw [peekDevices, decode_chip, if_pos hc, List.find?_cons_of_pos (by exact hc)]
        rcases c with r | r
        · exact congrArg (Bytes.get r.bytes) hp
        · exact congrArg (Bytes.get r.bytes) hp
      · rw [peekDevices, decode_chip, if_neg hc, List.find?_cons_of_neg (by exact hc)]
        exact ih

theorem peek_eq (b : Backplane Chip) (a : Address) : Bus.peek b a = (b.cells a).value := by
  rw [cells]
  cases hr : b.regions.find? (·.contains a.value) with
  | some r =>
      simp only [Bus.peek, hr]
      rw [server_of_region hr]
      rfl
  | none =>
      simp only [Bus.peek, hr]
      rw [server_of_no_region hr, peekDevices_eq]
      cases b.devices.find? fun c => (chip c).holds a with
      | none => rfl
      | some c => rfl

/-- A byte is a chunk of one. -/
theorem attachments_write (b : Backplane Chip) (a : Address) (v : UInt8) :
    (Bus.write b a v).attachments = updateFirst (·.holds a) (·.put a [v]) b.attachments :=
  (attachments_writeChunk b a v []).trans (by rw [List.take_nil])

/-- Memory chips ask for no interrupt. -/
theorem irqActive_eq (b : Backplane Chip) : Bus.irqActive b = false := by
  show b.devices.any Device.irqActive = false
  rw [List.any_eq_false]
  intro c _
  rcases c with r | r
  · exact Bool.false_ne_true
  · exact Bool.false_ne_true

/-- Who answers where after something has been written at `a`: the same attachment as before, with
    the bytes put into it if it is the one that answers at `a`. -/
theorem server_updateFirst {b b' : Backplane Chip} {a : Address} {l : List UInt8}
    (h : b'.attachments = updateFirst (·.holds a) (·.put a l) b.attachments) (a' : Address) :
    (b.server a = b.server a' ∧ b'.server a' = (b.server a').map (·.put a l)) ∨
      (b.server a ≠ b.server a' ∧ b'.server a' = b.server a') := by
  by_cases hs : b.server a = b.server a'
  · refine Or.inl ⟨hs, ?_⟩
    rw [server, h]
    exact find?_updateFirst_of_eq b.attachments (fun x => x.holds_put a l a') hs
  · refine Or.inr ⟨hs, ?_⟩
    rw [server, h]
    exact find?_updateFirst_of_ne b.attachments (fun x => x.holds_put a l a') hs

/-- The attachment that was written to answers as before, with the new bytes. -/
theorem server_updateFirst_self {b b' : Backplane Chip} {a : Address} {l : List UInt8}
    (h : b'.attachments = updateFirst (·.holds a) (·.put a l) b.attachments) {x : Attachment}
    (hx : b.server a = some x) : b'.server a = some (x.put a l) := by
  rcases server_updateFirst h a with ⟨-, ht⟩ | ⟨ht, -⟩
  · rw [ht, hx]
    rfl
  · exact absurd rfl ht

/-- Writing a byte writes the cell at its address and leaves all others alone. -/
theorem cells_write (b : Backplane Chip) (a : Address) (v : UInt8) :
    (Bus.write b a v).cells = b.cells.overwrite a [v] := by
  funext a'
  rw [CellMap.overwrite_singleton]
  -- Of an address with another attachment nothing changes. With the same one, the bytes of the
  -- attachment decide.
  rcases server_updateFirst (attachments_write b a v) a' with ⟨hs, hs'⟩ | ⟨hs, hs'⟩
  · cases hx : b.server a' with
    | none =>
        rw [cells, hs', cells, hx]
        exact (ite_self _).symm
    | some x =>
        rw [cells, hs', cells, hx]
        exact Attachment.cell_put (holds_of_server (hs.trans hx)) (holds_of_server hx) v
  · have hne : a ≠ a' := by
      rintro rfl
      exact hs rfl
    rw [cells, hs', if_neg hne, cells]

end Backplane

end W65C816
