import W65C816.Bus.Backplane

/-!
# Chunks and buffers

How a long access goes through its buffer, whatever the devices do: they may decode as they like and
open windows of any length, also empty ones and such that go on beyond the top of the address space.

* `Backplane.readChunk?` and `Backplane.writeChunk?` serve a chunk with every slice checked. A slice
  that does not lie in its block is refused. None ever is (`Backplane.readChunk?_eq`,
  `Backplane.writeChunk?_eq`), and what comes out is what the unchecked functions give.
* `Backplane.Fills` and `Backplane.Drains` are the loops, with the index they keep and the buffer
  they work on. They are derivations, so they come to an end.
* `Span` is the part of a buffer that a chunk takes. `Covers` says that spans lie one behind the
  other, that no one is empty or wraps, and which byte belongs to which address.
-/

namespace W65C816

/-! ## Spans -/

/-- The part of a buffer that a chunk takes: from a position on, at consecutive addresses. -/
structure Span where
  position : Nat
  address : Address
  length : Nat
  deriving DecidableEq, Repr

/-- Each byte of a span, with the value of its address. -/
def Span.bytes (s : Span) : List (Nat × Nat) :=
  (List.range s.length).map fun k => (s.position + k, s.address.value.toNat + k)

/-- Spans of a buffer that take `n` bytes from position `filled` on, in order and each byte once.
    The buffer starts at the address `start`. -/
structure Covers (start : Address) (filled n : Nat) (spans : List Span) : Prop where
  within : ∀ s ∈ spans, 1 ≤ s.length ∧ s.position + s.length ≤ filled + n
  inSpace : ∀ s ∈ spans, s.address.value.toNat + s.length ≤ Address.spaceSize
  inOrder : spans.flatMap Span.bytes =
    (List.range' filled n).map fun i => (i, (start.value.toNat + i) % Address.spaceSize)

namespace Covers

variable {start : Address} {filled n count : Nat} {spans : List Span}

theorem nil (start : Address) (filled : Nat) : Covers start filled 0 [] :=
  ⟨nofun, nofun, rfl⟩

/-- A span that does not wrap, and behind it the spans of the rest. -/
theorem cons (hpos : 1 ≤ count) (hle : count ≤ n)
    (hroom : count ≤ Backplane.roomAbove (start.onward (UInt32.ofNat filled)))
    (h : Covers start (filled + count) (n - count) spans) :
    Covers start filled n (⟨filled, start.onward (UInt32.ofNat filled), count⟩ :: spans) := by
  have hlt := (start.onward (UInt32.ofNat filled)).toNat_value_lt
  rw [Backplane.roomAbove] at hroom
  refine ⟨?_, ?_, ?_⟩
  · intro s hs
    rcases List.mem_cons.mp hs with rfl | hs
    · exact ⟨hpos, Nat.add_le_add_left hle filled⟩
    · obtain ⟨hone, hend⟩ := h.within s hs
      exact ⟨hone, by omega⟩
  · intro s hs
    rcases List.mem_cons.mp hs with rfl | hs
    · show (start.onward (UInt32.ofNat filled)).value.toNat + count ≤ _
      omega
    · exact h.inSpace s hs
  -- The addresses of the span in numbers. They are taken modulo the space only because the start
  -- is.
  · have hfirst : Span.bytes ⟨filled, start.onward (UInt32.ofNat filled), count⟩ =
        (List.range' filled count).map fun i =>
          (i, (start.value.toNat + i) % Address.spaceSize) := by
      rw [Span.bytes, List.range'_eq_map_range, List.map_map]
      refine List.map_congr_left fun k hk => congrArg (Prod.mk (filled + k)) ?_
      have hcount : k < count := List.mem_range.mp hk
      show (start.onward (UInt32.ofNat filled)).value.toNat + k =
        (start.value.toNat + (filled + k)) % Address.spaceSize
      rw [Address.toNat_value_onward_ofNat, Address.spaceSize] at hroom hlt ⊢
      omega
    have hsplit : List.range' filled n =
        List.range' filled count ++ List.range' (filled + count) (n - count) := by
      rw [List.range'_append_1, Nat.add_sub_cancel' hle]
    rw [List.flatMap_cons, hfirst, h.inOrder, hsplit, List.map_append]

end Covers

/-! ## Chunks with every slice checked -/

/-- How many bytes of a chunk a region takes, out of a buffer. The part of the region behind the
    address, and the parts of both that are copied, have to lie in their blocks. -/
def Region.served? (r : Region) (a : UInt32) (buffer limit : Nat) : Option Nat := do
  guard (r.start ≤ a ∧ r.position a ≤ r.bytes.size)
  let count := min (r.roomAt a) limit
  guard (count ≤ r.roomAt a ∧ count ≤ buffer)
  return count

/-- How many bytes of a chunk a device takes, out of a buffer. The first byte is there in any case,
    and the others go between the window and the buffer. -/
def Device.served? (window : Option Nat) (buffer limit : Nat) : Option Nat := do
  guard (0 < buffer)
  match window with
  | some length =>
      if 1 < length ∧ 1 < limit then
        let count := min length limit
        guard (1 ≤ count ∧ count ≤ length ∧ count ≤ buffer)
        return count
      else
        return 1
  | none => return 1

namespace Backplane

variable {D : Type} [Device D]

/-- `Backplane.readDevices` with every slice checked. The outer option tells of a refusal. -/
def readDevices? (a : Address) (buffer limit : Nat) :
    List D → Option (Option (List UInt8 × List D))
  | [] => return none
  | d :: rest =>
      match Device.decode d a with
      | some i => do
          let r := Device.read d i
          let count ← Device.served? r.window buffer limit
          let tail := (List.range (count - 1)).map fun k => Device.windowGet r.device i (k + 1)
          return some (r.value :: tail, r.device :: rest)
      | none => do
          let found ← readDevices? a buffer limit rest
          return found.map fun p => (p.1, d :: p.2)

/-- `Backplane.readChunk` with every slice checked, into a buffer of the given size. -/
def readChunk? (b : Backplane D) (a : Address) (buffer : Nat) :
    Option (List UInt8 × Backplane D) := do
  let limit := min buffer (roomAbove a)
  match b.regions.find? (·.contains a.value) with
  | some r =>
      let count ← r.served? a.value buffer limit
      return (Bytes.slice r.bytes (r.position a.value) count, b)
  | none =>
      match ← readDevices? a buffer limit b.devices with
      | some (bytes, devices) => return (bytes, { b with devices })
      | none =>
          guard (0 < buffer)
          return ([0], b)

/-- `Backplane.writeRegions` with every slice checked. -/
def writeRegions? (a : Address) (limit : Nat) (buffer : List UInt8) :
    List Region → Option (Option (Nat × List Region))
  | [] => return none
  | r :: regions =>
      if r.contains a.value then do
        let count ← r.served? a.value buffer.length limit
        return some (count, r.put a.value (buffer.take count) :: regions)
      else do
        let found ← writeRegions? a limit buffer regions
        return found.map fun p => (p.1, r :: p.2)

/-- `Backplane.writeDevices` with every slice checked. -/
def writeDevices? (a : Address) (limit : Nat) (buffer : List UInt8) :
    List D → Option (Option (Nat × List D))
  | [] => return none
  | d :: devices =>
      match Device.decode d a with
      | some i => do
          let v ← buffer.head?
          let w := Device.write d i v
          let count ← Device.served? w.window buffer.length limit
          let device := Device.windowPutAll w.device i 1 ((buffer.take count).drop 1)
          return some (count, device :: devices)
      | none => do
          let found ← writeDevices? a limit buffer devices
          return found.map fun p => (p.1, d :: p.2)

/-- `Backplane.writeChunk` with every slice checked. The number counts all bytes of the chunk. -/
def writeChunk? (b : Backplane D) (a : Address) (buffer : List UInt8) :
    Option (Nat × Backplane D) := do
  let limit := min buffer.length (roomAbove a)
  match ← writeRegions? a limit buffer b.regions with
  | some (count, regions) => return (count, { b with regions })
  | none =>
      match ← writeDevices? a limit buffer b.devices with
      | some (count, devices) => return (count, { b with devices })
      | none => return (1, b)

end Backplane

/-! ## No slice is refused -/

/-- A condition that holds lets a computation go on. -/
theorem guard_bind {α : Type} {p : Prop} [Decidable p] (h : p) (k : Unit → Option α) :
    (guard p >>= k) = k () := by
  have hguard : (guard p : Option Unit) = some () := if_pos h
  rw [hguard]
  rfl

open Backplane in
/-- A region has the bytes from each of its addresses on. -/
theorem Region.served?_eq {r : Region} {a : UInt32} (h : r.contains a = true) {buffer limit : Nat}
    (hpos : 0 < limit) (hle : limit ≤ buffer) :
    r.served? a buffer limit = some (following (r.roomAt a) limit + 1) := by
  obtain ⟨hstart, hlast⟩ := of_decide_eq_true h
  have hn := r.nonempty
  rw [UInt32.le_iff_toNat_le, r.toNat_last] at hlast
  have hposition : r.position a < r.bytes.size := by
    rw [position]
    omega
  have hcount : min (r.roomAt a) limit = following (r.roomAt a) limit + 1 := by
    rw [following, roomAt]
    omega
  have htail : r.start ≤ a ∧ r.position a ≤ r.bytes.size := ⟨hstart, Nat.le_of_lt hposition⟩
  have hslices : min (r.roomAt a) limit ≤ r.roomAt a ∧ min (r.roomAt a) limit ≤ buffer :=
    ⟨Nat.min_le_left _ _, Nat.le_trans (Nat.min_le_right _ _) hle⟩
  calc r.served? a buffer limit
    _ = (guard (min (r.roomAt a) limit ≤ r.roomAt a ∧ min (r.roomAt a) limit ≤ buffer) >>=
          fun _ => some (min (r.roomAt a) limit)) := guard_bind htail _
    _ = some (min (r.roomAt a) limit) := guard_bind hslices _
    _ = some (following (r.roomAt a) limit + 1) := congrArg some hcount

open Backplane in
/-- A window gives no more than it has, however long it is. -/
theorem Device.served?_eq (window : Option Nat) {buffer limit : Nat} (hpos : 0 < limit)
    (hle : limit ≤ buffer) :
    Device.served? window buffer limit = some (following (window.getD 0) limit + 1) := by
  have hbuffer : 0 < buffer := Nat.lt_of_lt_of_le hpos hle
  cases window with
  | none =>
      have hnothing : following 0 limit = 0 := by
        rw [following, Nat.zero_min]
      refine (guard_bind hbuffer _).trans ?_
      rw [Option.getD_none, hnothing]
      rfl
  | some length =>
      refine (guard_bind hbuffer _).trans ?_
      rw [Option.getD_some]
      by_cases hmore : 1 < length ∧ 1 < limit
      · have hslices : 1 ≤ min length limit ∧ min length limit ≤ length ∧
            min length limit ≤ buffer := by omega
        have hcount : min length limit = following length limit + 1 := by
          rw [following]
          omega
        refine (if_pos hmore).trans ((guard_bind hslices _).trans ?_)
        exact congrArg some hcount
      · have hnothing : following length limit = 0 := by
          rw [following]
          omega
        rw [hnothing]
        exact if_neg hmore

theorem Bytes.slice_succ (b : ByteArray) (i n : Nat) :
    slice b i (n + 1) = get b i :: slice b (i + 1) n := by
  rw [slice, List.range_succ_eq_map, List.map_cons, List.map_map]
  refine congrArg (get b i :: ·) (List.map_congr_left fun k _ => ?_)
  rw [Function.comp_apply, Nat.add_assoc, Nat.add_comm 1]

namespace Backplane

variable {D : Type} [Device D] {limit : Nat}

/-! Who does not answer is passed over. -/

theorem readDevices_skip {a : Address} {d : D} (h : Device.decode d a = none) (rest : List D) :
    readDevices a limit (d :: rest) =
      (readDevices a limit rest).map fun p => (p.1, d :: p.2) := by
  rw [readDevices, h]
  cases readDevices a limit rest with
  | some p => rfl
  | none => rfl

theorem writeRegions_skip {a : Address} {r : Region} (h : r.contains a.value = false) (v : UInt8)
    (rest : List UInt8) (regions : List Region) :
    writeRegions a limit v rest (r :: regions) =
      (writeRegions a limit v rest regions).map fun p => (p.1, r :: p.2) := by
  rw [writeRegions, h]
  cases writeRegions a limit v rest regions with
  | some p => rfl
  | none => rfl

theorem writeDevices_skip {a : Address} {d : D} (h : Device.decode d a = none) (v : UInt8)
    (rest : List UInt8) (devices : List D) :
    writeDevices a limit v rest (d :: devices) =
      (writeDevices a limit v rest devices).map fun p => (p.1, d :: p.2) := by
  rw [writeDevices, h]
  cases writeDevices a limit v rest devices with
  | some p => rfl
  | none => rfl

/-- The device that answers is the same with checks and without, and they refuse nothing of it. -/
theorem readDevices?_eq (a : Address) {buffer : Nat} (hpos : 0 < limit) (hle : limit ≤ buffer)
    (l : List D) :
    readDevices? a buffer limit l =
      some ((readDevices a limit l).map fun p => (p.1.first :: p.1.rest, p.2)) := by
  induction l with
  | nil => rfl
  | cons d rest ih =>
      cases hd : Device.decode d a with
      | some i =>
          rw [readDevices?, readDevices, hd]
          dsimp only
          rw [Device.served?_eq _ hpos hle]
          rfl
      | none =>
          rw [readDevices?, hd, readDevices_skip hd, Option.map_map]
          dsimp only
          rw [ih]
          exact congrArg some (Option.map_map ..)

/-- A chunk is read without a slice out of range, and it is the chunk that is read anyway. -/
theorem readChunk?_eq (b : Backplane D) (a : Address) {n : Nat} (hn : 0 < n) :
    b.readChunk? a n =
      some ((b.readChunk a n).1.first :: (b.readChunk a n).1.rest, (b.readChunk a n).2) := by
  have hroom : 0 < roomAbove a := Nat.sub_pos_of_lt a.toNat_value_lt
  have hpos : 0 < min n (roomAbove a) := by omega
  have hle : min n (roomAbove a) ≤ n := Nat.min_le_left _ _
  rw [readChunk?, readChunk]
  -- A region that has the address is served out of its bytes, and devices are asked only otherwise.
  cases hr : b.regions.find? (·.contains a.value) with
  | some r =>
      have hcontains : r.contains a.value = true := by
        have hfound := List.find?_some hr
        exact hfound
      dsimp only
      rw [Region.served?_eq hcontains hpos hle]
      exact congrArg (fun bytes => some (bytes, b)) (Bytes.slice_succ _ _ _)
  | none =>
      dsimp only
      rw [readDevices?_eq a hpos hle]
      cases readDevices a (min n (roomAbove a)) b.devices with
      | some p => rfl
      | none =>
          exact guard_bind hn _

/-- The region that takes a chunk is the same with checks and without. With them, the first byte is
    counted as well. -/
theorem writeRegions?_eq (a : Address) (v : UInt8) (rest : List UInt8) (hpos : 0 < limit)
    (hle : limit ≤ (v :: rest).length) (l : List Region) :
    writeRegions? a limit (v :: rest) l =
      some ((writeRegions a limit v rest l).map fun p => (p.1 + 1, p.2)) := by
  induction l with
  | nil => rfl
  | cons r regions ih =>
      cases hr : r.contains a.value with
      | true =>
          rw [writeRegions?, writeRegions, if_pos hr, if_pos hr, Region.served?_eq hr hpos hle,
            Option.bind_eq_bind, Option.bind_some, List.take_succ_cons]
          rfl
      | false =>
          rw [writeRegions?, hr, writeRegions_skip hr, Option.map_map, ih]
          exact congrArg some (Option.map_map ..)

theorem writeDevices?_eq (a : Address) (v : UInt8) (rest : List UInt8) (hpos : 0 < limit)
    (hle : limit ≤ (v :: rest).length) (l : List D) :
    writeDevices? a limit (v :: rest) l =
      some ((writeDevices a limit v rest l).map fun p => (p.1 + 1, p.2)) := by
  induction l with
  | nil => rfl
  | cons d devices ih =>
      cases hd : Device.decode d a with
      | some i =>
          rw [writeDevices?, writeDevices, hd]
          show (Device.served? _ _ _).bind _ = _
          rw [Device.served?_eq _ hpos hle]
          rfl
      | none =>
          rw [writeDevices?, hd, writeDevices_skip hd, Option.map_map]
          dsimp only
          rw [ih]
          exact congrArg some (Option.map_map ..)

/-- So is a chunk written. -/
theorem writeChunk?_eq (b : Backplane D) (a : Address) (v : UInt8) (rest : List UInt8) :
    b.writeChunk? a (v :: rest) =
      some ((b.writeChunk a v rest).1 + 1, (b.writeChunk a v rest).2) := by
  have hroom : 0 < roomAbove a := Nat.sub_pos_of_lt a.toNat_value_lt
  have hpos : 0 < min (rest.length + 1) (roomAbove a) := by omega
  have hle : min (rest.length + 1) (roomAbove a) ≤ (v :: rest).length := Nat.min_le_left _ _
  rw [writeChunk?, writeChunk, List.length_cons, writeRegions?_eq a v rest hpos hle]
  cases writeRegions a (min (rest.length + 1) (roomAbove a)) v rest b.regions with
  | some p => rfl
  | none =>
      show (writeDevices? _ _ _ _).bind _ = _
      rw [writeDevices?_eq a v rest hpos hle]
      cases writeDevices a (min (rest.length + 1) (roomAbove a)) v rest b.devices with
      | some p => rfl
      | none => rfl

/-! ## No chunk is too long -/

theorem following_lt (hpos : 0 < limit) (available : Nat) :
    following available limit + 1 ≤ limit := by
  rw [following]
  omega

/-- What a device gives keeps to the limit, whatever window it opens. -/
theorem length_readDevices {a : Address} (hpos : 0 < limit) {l : List D} {p : Chunk × List D}
    (h : readDevices a limit l = some p) : p.1.rest.length + 1 ≤ limit := by
  induction l generalizing p with
  | nil => exact nomatch h
  | cons d rest ih =>
      cases hd : Device.decode d a with
      | some i =>
          rw [readDevices, hd] at h
          obtain rfl := Option.some.inj h
          rw [List.length_map, List.length_range]
          exact following_lt hpos _
      | none =>
          rw [readDevices_skip hd, Option.map_eq_some_iff] at h
          obtain ⟨q, hq, rfl⟩ := h
          exact ih (p := q) hq

/-- A chunk that is read is no longer than what is wanted and what lies below the top of the space.
    -/
theorem length_readChunk (b : Backplane D) (a : Address) {n : Nat} (hn : 0 < n) :
    (b.readChunk a n).1.rest.length + 1 ≤ min n (roomAbove a) := by
  have hroom : 0 < roomAbove a := Nat.sub_pos_of_lt a.toNat_value_lt
  have hpos : 0 < min n (roomAbove a) := by omega
  rw [readChunk]
  cases b.regions.find? (·.contains a.value) with
  | some r =>
      dsimp only
      rw [Bytes.length_slice]
      exact following_lt hpos _
  | none =>
      dsimp only
      cases hd : readDevices a (min n (roomAbove a)) b.devices with
      | some p => exact length_readDevices hpos hd
      | none => exact hpos

theorem writeRegions_lt {a : Address} {v : UInt8} {rest : List UInt8} (hpos : 0 < limit)
    {l : List Region} {p : Nat × List Region} (h : writeRegions a limit v rest l = some p) :
    p.1 + 1 ≤ limit := by
  induction l generalizing p with
  | nil => exact nomatch h
  | cons r regions ih =>
      cases hr : r.contains a.value with
      | true =>
          rw [writeRegions, if_pos hr] at h
          obtain rfl := Option.some.inj h
          exact following_lt hpos _
      | false =>
          rw [writeRegions_skip hr, Option.map_eq_some_iff] at h
          obtain ⟨q, hq, rfl⟩ := h
          exact ih (p := q) hq

theorem writeDevices_lt {a : Address} {v : UInt8} {rest : List UInt8} (hpos : 0 < limit)
    {l : List D} {p : Nat × List D} (h : writeDevices a limit v rest l = some p) :
    p.1 + 1 ≤ limit := by
  induction l generalizing p with
  | nil => exact nomatch h
  | cons d devices ih =>
      cases hd : Device.decode d a with
      | some i =>
          rw [writeDevices, hd] at h
          obtain rfl := Option.some.inj h
          exact following_lt hpos _
      | none =>
          rw [writeDevices_skip hd, Option.map_eq_some_iff] at h
          obtain ⟨q, hq, rfl⟩ := h
          exact ih (p := q) hq

/-- A chunk that is written is no longer than what remains and what lies below the top of the space.
    -/
theorem writeChunk_lt (b : Backplane D) (a : Address) (v : UInt8) (rest : List UInt8) :
    (b.writeChunk a v rest).1 + 1 ≤ min (rest.length + 1) (roomAbove a) := by
  have hroom : 0 < roomAbove a := Nat.sub_pos_of_lt a.toNat_value_lt
  have hpos : 0 < min (rest.length + 1) (roomAbove a) := by omega
  rw [writeChunk]
  cases hr : writeRegions a (min (rest.length + 1) (roomAbove a)) v rest b.regions with
  | some p => exact writeRegions_lt hpos hr
  | none =>
      dsimp only
      cases hd : writeDevices a (min (rest.length + 1) (roomAbove a)) v rest b.devices with
      | some p => exact writeDevices_lt hpos hd
      | none => exact hpos

/-! ## From chunk to chunk -/

/-- The loop that fills a buffer from the bus. The number counts the bytes that are filled, and the
    spans are those of the chunks. -/
inductive Fills (start : Address) :
    Backplane D → List UInt8 → Nat → List Span → Backplane D × List UInt8 → Prop
  | done {b : Backplane D} {out : List UInt8} {filled : Nat} (hfull : ¬ filled < out.length) :
      Fills start b out filled [] (b, out)
  | chunk {b b' : Backplane D} {out bytes : List UInt8} {filled : Nat} {spans : List Span}
      {after : Backplane D × List UInt8} (hmore : filled < out.length)
      (hchunk : b.readChunk? (start.onward (UInt32.ofNat filled)) (out.length - filled) =
        some (bytes, b'))
      (hrest : Fills start b' (out.take filled ++ bytes ++ out.drop (filled + bytes.length))
        (filled + bytes.length) spans after) :
      Fills start b out filled
        (⟨filled, start.onward (UInt32.ofNat filled), bytes.length⟩ :: spans) after

/-- The loop that writes a buffer to the bus. The number counts the bytes that are written. -/
inductive Drains (start : Address) (buffer : List UInt8) :
    Backplane D → Nat → List Span → Backplane D → Prop
  | done {b : Backplane D} {written : Nat} (hall : ¬ written < buffer.length) :
      Drains start buffer b written [] b
  | chunk {b b' after : Backplane D} {written count : Nat} {spans : List Span}
      (hmore : written < buffer.length)
      (hchunk : b.writeChunk? (start.onward (UInt32.ofNat written)) (buffer.drop written) =
        some (count, b'))
      (hrest : Drains start buffer b' (written + count) spans after) :
      Drains start buffer b written
        (⟨written, start.onward (UInt32.ofNat written), count⟩ :: spans) after

/-- A reading takes a chunk, which is not empty, fits and does not wrap, and goes on behind it. -/
theorem readBytes_chunk (b : Backplane D) (a : Address) {n : Nat} (hn : 0 < n) :
    ∃ bytes b', b.readChunk? a n = some (bytes, b') ∧ 1 ≤ bytes.length ∧ bytes.length ≤ n ∧
      bytes.length ≤ roomAbove a ∧
      let rest := b'.readBytes (a.onward (UInt32.ofNat bytes.length)) (n - bytes.length)
      b.readBytes a n = (bytes ++ rest.1, rest.2) := by
  have hlength := b.length_readChunk a hn
  rw [← List.length_cons] at hlength
  refine ⟨_, _, b.readChunk?_eq a hn, Nat.succ_pos _, ?_, ?_, ?_⟩
  · exact Nat.le_trans hlength (Nat.min_le_left _ _)
  · exact Nat.le_trans hlength (Nat.min_le_right _ _)
  · intro rest
    rw [readBytes, if_neg (Nat.ne_of_gt hn)]
    rfl

/-- So does a writing. -/
theorem writeBytes_chunk (b : Backplane D) (a : Address) {buffer : List UInt8}
    (hn : 0 < buffer.length) :
    ∃ count b', b.writeChunk? a buffer = some (count, b') ∧ 1 ≤ count ∧ count ≤ buffer.length ∧
      count ≤ roomAbove a ∧
      b.writeBytes a buffer =
        b'.writeBytes (a.onward (UInt32.ofNat count)) (buffer.drop count) := by
  cases buffer with
  | nil => exact absurd hn (Nat.lt_irrefl 0)
  | cons v rest =>
      have hcount := b.writeChunk_lt a v rest
      refine ⟨_, _, b.writeChunk?_eq a v rest, Nat.succ_pos _, ?_, ?_, ?_⟩
      · exact Nat.le_trans hcount (Nat.min_le_left _ _)
      · exact Nat.le_trans hcount (Nat.min_le_right _ _)
      · rw [writeBytes, List.drop_succ_cons]

/-- The loop comes to its end from everywhere in the buffer. The induction is on what is still to
    be filled, of which each chunk takes at least one byte. -/
theorem exists_fills (start : Address) (b : Backplane D) {out : List UInt8} {filled n : Nat}
    (hn : filled + n = out.length) :
    let rest := b.readBytes (start.onward (UInt32.ofNat filled)) n
    ∃ spans, Covers start filled n spans ∧
      Fills start b out filled spans (rest.2, out.take filled ++ rest.1) := by
  induction n using Nat.strongRecOn generalizing b out filled with
  | ind n ih =>
      intro rest
      rcases Nat.eq_zero_or_pos n with rfl | hpos
      · have hrest : rest = ([], b) := by
          simp only [rest]
          rw [readBytes, if_pos rfl]
        refine ⟨[], .nil start filled, ?_⟩
        rw [hrest, List.append_nil, List.take_of_length_le (by omega)]
        exact .done (by omega)
      -- A chunk has at least one byte, so less remains of the buffer after it.
      · obtain ⟨bytes, b', hchunk, hone, hle, hroom, hread⟩ :=
          b.readBytes_chunk (start.onward (UInt32.ofNat filled)) hpos
        have hprefix : (out.take filled ++ bytes).length = filled + bytes.length := by
          rw [List.length_append, List.length_take]
          omega
        have hkept : (out.take filled ++ bytes ++ out.drop (filled + bytes.length)).length =
            out.length := by
          rw [List.length_append, hprefix, List.length_drop]
          omega
        have hnext : filled + bytes.length + (n - bytes.length) =
            (out.take filled ++ bytes ++ out.drop (filled + bytes.length)).length := by
          rw [hkept]
          omega
        -- The buffer of the rest is the one with the chunk in its place.
        obtain ⟨spans, hcovers, hfills⟩ := ih (n - bytes.length) (by omega) b' hnext
        have htake : (out.take filled ++ bytes ++ out.drop (filled + bytes.length)).take
            (filled + bytes.length) = out.take filled ++ bytes := List.take_left' hprefix
        rw [Address.onward_onward_ofNat] at hread
        rw [htake] at hfills
        refine ⟨_, .cons hone hle hroom hcovers, ?_⟩
        simp only [rest]
        rw [hread]
        dsimp only
        rw [← List.append_assoc]
        refine .chunk (by omega) ?_ hfills
        rw [← hn, Nat.add_sub_cancel_left]
        exact hchunk

/-- So does the loop that writes. -/
theorem exists_drains (start : Address) (b : Backplane D) {buffer : List UInt8} {written n : Nat}
    (hn : written + n = buffer.length) :
    ∃ spans, Covers start written n spans ∧
      Drains start buffer b written spans
        (b.writeBytes (start.onward (UInt32.ofNat written)) (buffer.drop written)) := by
  induction n using Nat.strongRecOn generalizing b written with
  | ind n ih =>
      have hlength : (buffer.drop written).length = n := by
        rw [List.length_drop]
        omega
      -- At the end of the buffer the loop stops, and before it there is a byte to write.
      rcases Nat.eq_zero_or_pos n with rfl | hpos
      · refine ⟨[], .nil start written, ?_⟩
        rw [List.eq_nil_of_length_eq_zero hlength, writeBytes]
        exact .done (by omega)
      · obtain ⟨count, b', hchunk, hone, hle, hroom, hwrite⟩ :=
          b.writeBytes_chunk (start.onward (UInt32.ofNat written)) (by rw [hlength]; exact hpos)
        rw [hlength] at hle
        have hnext : written + count + (n - count) = buffer.length := by omega
        obtain ⟨spans, hcovers, hdrains⟩ := ih (n - count) (by omega) b' hnext
        rw [Address.onward_onward_ofNat, List.drop_drop] at hwrite
        refine ⟨_, .cons hone hle hroom hcovers, ?_⟩
        rw [hwrite]
        exact .chunk (by omega) hchunk hdrains

/-- Reading into a buffer and writing a buffer, with any devices and any number of bytes. Both loops
    come to an end without a slice that is refused, in what `readBytes` and `writeBytes` give. Their
    chunks take at least one byte and no more than are left, and none of them wraps at the top of
    the address space. In order, they take every byte of the buffer once, and each byte belongs to
    the address that is as far from the start as the byte is, modulo the size of the space. -/
theorem chunks_cover_buffer (b : Backplane D) (start : Address) (buffer : List UInt8) :
    let n := buffer.length
    (∃ spans, Covers start 0 n spans ∧
        Fills start b buffer 0 spans ((b.readBytes start n).2, (b.readBytes start n).1)) ∧
      ∃ spans, Covers start 0 n spans ∧
        Drains start buffer b 0 spans (b.writeBytes start buffer) := by
  intro n
  have hn : 0 + n = buffer.length := Nat.zero_add _
  have hfills := exists_fills start b hn
  have hdrains := exists_drains start b hn
  rw [Address.onward_ofNat_zero] at hfills hdrains
  exact ⟨hfills, hdrains⟩

end Backplane

end W65C816
