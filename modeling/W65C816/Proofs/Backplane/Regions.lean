import W65C816.Proofs.Backplane.Attachments
import W65C816.Proofs.Requests

/-!
# Regions stay apart

Whatever is added to a backplane and however it is used, its flat regions share no addresses and
stay where they are. Devices of any kind may take part, and advertise any regions.

* `Region.overlaps_iff` says that overlapping is about shared addresses, and
  `Region.ofBytes?_ok_iff` which bytes make a region.
* `Backplane.addRegion_ok_iff` and `Backplane.addRegion_eq_error` say when a region is added, and
  what the error is about when it is not.
* `Backplane.bounds_serve` goes through the requests: reading leaves the regions as they are, and
  writing leaves their bounds. `Backplane.room_readChunk` and `Backplane.room_writeChunk` say that a
  chunk stays inside the bytes of its region.
* `regions_stay_apart` is the result, by induction over what is done to the backplane.
-/

namespace W65C816

namespace Region

/-! ## Bounds -/

/-- Two regions that share no address. -/
def Apart (r s : Region) : Prop :=
  ∀ a, ¬ (r.contains a = true ∧ s.contains a = true)

theorem start_le_last (r : Region) : r.start ≤ r.last := by
  have hn := r.nonempty
  rw [UInt32.le_iff_toNat_le, r.toNat_last]
  omega

theorem contains_iff (r : Region) (a : UInt32) :
    r.contains a = true ↔ r.start ≤ a ∧ a ≤ r.last :=
  decide_eq_true_iff

theorem position_lt_size {r : Region} {a : UInt32} (h : r.contains a = true) :
    r.position a < r.bytes.size := by
  obtain ⟨hstart, hlast⟩ := (r.contains_iff a).mp h
  rw [UInt32.le_iff_toNat_le] at hstart hlast
  rw [r.toNat_last] at hlast
  have hn := r.nonempty
  rw [position]
  omega

/-- Regions overlap exactly when they are not apart. -/
theorem overlaps_iff (r s : Region) : r.overlaps s = true ↔ ¬ r.Apart s := by
  constructor
  · intro h hapart
    obtain ⟨a, ha⟩ := exists_of_overlaps h
    exact hapart a.value ha
  · intro h
    refine Decidable.byContradiction fun hover => h ?_
    rintro a ⟨hr, hs⟩
    obtain ⟨hr₁, hr₂⟩ := (r.contains_iff a).mp hr
    obtain ⟨hs₁, hs₂⟩ := (s.contains_iff a).mp hs
    exact hover (decide_eq_true ⟨UInt32.le_trans hr₁ hs₂, UInt32.le_trans hs₁ hr₂⟩)

/-- The first and the last address of a region. -/
def bounds (r : Region) : UInt32 × UInt32 :=
  (r.start, r.last)

/-- Regions with the same bounds, one by one, are apart in the same way. -/
theorem pairwise_apart_of_bounds {l l' : List Region} (hbounds : l'.map bounds = l.map bounds)
    (h : l.Pairwise Apart) : l'.Pairwise Apart := by
  have happart : ∀ l : List Region, l.Pairwise Apart ↔
      (l.map bounds).Pairwise fun p q => ∀ a, ¬ ((p.1 ≤ a ∧ a ≤ p.2) ∧ q.1 ≤ a ∧ a ≤ q.2) := by
    intro l
    rw [List.pairwise_map]
    exact List.Pairwise.iff fun r s => by simp only [Apart, contains_iff, bounds]
  rw [happart, hbounds, ← happart]
  exact h

/-! ## Building -/

/-- Regions of a range have just the bounds and the bytes that they are given. -/
theorem ofRange?_eq_ok {start last : UInt32} {bytes : ByteArray} {r : Region}
    (h : ofRange? start last bytes = .ok r) :
    r.start = start ∧ r.last = last ∧ r.bytes = bytes := by
  rw [ofRange?] at h
  split at h
  · cases h
  split at h
  · rename_i hrange hsize
    obtain rfl := Except.ok.inj h
    refine ⟨rfl, UInt32.toNat_inj.mp ?_, rfl⟩
    have hle : start.toNat ≤ last.toNat := by
      rw [UInt32.lt_iff_toNat_lt] at hrange
      omega
    rw [toNat_last]
    dsimp only
    omega
  · cases h

/-- Bytes make a region exactly when there are some and they end inside the address space. -/
theorem ofBytes?_ok_iff (start : UInt32) (bytes : ByteArray) :
    (∃ r, ofBytes? start bytes = .ok r) ↔
      0 < bytes.size ∧ start.toNat + bytes.size ≤ Address.spaceSize := by
  constructor
  · rintro ⟨r, h⟩
    rw [ofBytes?] at h
    split at h
    · cases h
    · obtain ⟨rfl, -, rfl⟩ := ofRange?_eq_ok h
      exact ⟨r.nonempty, r.inSpace⟩
  · rintro ⟨hn, hs⟩
    obtain ⟨r, h, -⟩ := ofBytes?_eq_ok hn hs
    exact ⟨r, h⟩

end Region

namespace Backplane

variable {D : Type} {b b' : Backplane D} {r : Region}

/-! ## Adding -/

/-- A region is added behind the others. -/
theorem addRegion_eq_ok (h : b.addRegion r = .ok b') :
    (∀ s ∈ b.regions, s.Apart r) ∧ b' = { b with regions := b.regions ++ [r] } := by
  rw [addRegion] at h
  cases hfind : b.regions.find? (·.overlaps r) with
  | some s =>
      rw [hfind] at h
      exact nomatch h
  | none =>
      rw [hfind] at h
      refine ⟨?_, (Except.ok.inj h).symm⟩
      intro s hs
      exact Classical.not_not.mp
        (mt (s.overlaps_iff r).mpr (List.find?_eq_none.mp hfind s hs))

/-- A region that is not added shares an address with one that is there. -/
theorem addRegion_eq_error {e : BusError} (h : b.addRegion r = .error e) :
    ∃ s ∈ b.regions, e = .overlap r.start r.last s.start s.last ∧
      ∃ a : Address, s.contains a.value = true ∧ r.contains a.value = true := by
  rw [addRegion] at h
  cases hfind : b.regions.find? (·.overlaps r) with
  | none =>
      rw [hfind] at h
      exact nomatch h
  | some s =>
      rw [hfind] at h
      have hover : s.overlaps r = true :=
        List.find?_some (p := fun s : Region => s.overlaps r) hfind
      exact ⟨s, List.mem_of_find?_eq_some hfind, (Except.error.inj h).symm,
        Region.exists_of_overlaps hover⟩

/-- A region is added exactly when it is apart from all that are there. -/
theorem addRegion_ok_iff (b : Backplane D) (r : Region) :
    (∃ b', b.addRegion r = .ok b') ↔ ∀ s ∈ b.regions, s.Apart r := by
  constructor
  · rintro ⟨b', h⟩
    exact (addRegion_eq_ok h).1
  · intro hapart
    cases h : b.addRegion r with
    | ok b' => exact ⟨b', rfl⟩
    | error e =>
        obtain ⟨s, hs, -, a, ha⟩ := addRegion_eq_error h
        exact absurd ha (hapart s hs a.value)

/-- No two regions share an address. -/
def RegionsApart (b : Backplane D) : Prop :=
  b.regions.Pairwise Region.Apart

/-- A region is only added when it is apart from all that are there, so they stay apart. -/
theorem RegionsApart.addRegion (hb : b.RegionsApart) (h : b.addRegion r = .ok b') :
    b'.RegionsApart := by
  obtain ⟨hapart, rfl⟩ := addRegion_eq_ok h
  refine List.pairwise_append.mpr ⟨hb, List.pairwise_singleton _ _, ?_⟩
  intro s hs t ht
  rw [List.mem_singleton.mp ht]
  exact hapart s hs

/-- Of the regions that a device hands over, those are dropped that are not apart from others. -/
theorem RegionsApart.addRegions (hb : b.RegionsApart) (l : List Region) :
    (b.addRegions l).1.RegionsApart := by
  induction l generalizing b with
  | nil => exact hb
  | cons r l ih =>
      rw [Backplane.addRegions]
      cases h : b.addRegion r with
      | ok b' => exact ih (hb.addRegion h)
      | error e => exact ih hb

/-! ## Using -/

/-- The bounds of the regions, in order. -/
def bounds (b : Backplane D) : List (UInt32 × UInt32) :=
  b.regions.map Region.bounds

/-- A region that takes a chunk stays where it is, with as many bytes as before. -/
theorem bounds_writeRegions {a : Address} {limit more : Nat} {v : UInt8} {rest : List UInt8}
    {rs rs' : List Region} (h : writeRegions a limit v rest rs = some (more, rs')) :
    rs'.map Region.bounds = rs.map Region.bounds := by
  rw [writeRegions_eq] at h
  obtain ⟨r, -, hr⟩ := Option.map_eq_some_iff.mp h
  obtain ⟨-, rfl⟩ := Prod.mk.inj hr
  refine map_updateFirst rs fun s => ?_
  rw [Region.bounds, Region.bounds, Region.start_put, Region.last_put]

variable [Device D]

/-- Reading a chunk may change a device, but no region. -/
theorem regions_readChunk (b : Backplane D) (a : Address) (wanted : Nat) :
    (b.readChunk a wanted).2.regions = b.regions := by
  rw [readChunk]
  split
  · rfl
  · split
    · rfl
    · rfl

theorem regions_readBytes (b : Backplane D) (a : Address) (n : Nat) :
    (b.readBytes a n).2.regions = b.regions := by
  fun_induction readBytes b a n with
  | case1 => rfl
  | case2 b a n hn chunk c hchunk taken rest c' hrest ih =>
      have hfirst := b.regions_readChunk a n
      rw [hchunk] at hfirst
      rw [hrest] at ih
      exact ih.trans hfirst

/-- A chunk goes to a region or to a device, and neither moves a region. -/
theorem bounds_writeChunk (b : Backplane D) (a : Address) (v : UInt8) (rest : List UInt8) :
    (b.writeChunk a v rest).2.bounds = b.bounds := by
  rw [writeChunk]
  split
  · rename_i h
    exact bounds_writeRegions h
  · split
    · rfl
    · rfl

theorem bounds_writeBytes (b : Backplane D) (a : Address) (l : List UInt8) :
    (b.writeBytes a l).bounds = b.bounds := by
  fun_induction writeBytes b a l with
  | case1 => rfl
  | case2 b a v rest more c hchunk ih =>
      have hfirst := b.bounds_writeChunk a v rest
      rw [hchunk] at hfirst
      exact ih.trans hfirst

/-- No request moves a region. Those that only ask do not even touch one. -/
theorem bounds_serve (b : Backplane D) (q : Request) : (serve b q).2.bounds = b.bounds := by
  cases q with
  | readByte a => exact congrArg (List.map Region.bounds) (b.regions_readChunk a 1)
  | peekByte a => rfl
  | readWord a => exact congrArg (List.map Region.bounds) (b.regions_readBytes a 2)
  | readLong a => exact congrArg (List.map Region.bounds) (b.regions_readBytes a 4)
  | readPointer a => exact congrArg (List.map Region.bounds) (b.regions_readBytes a 3)
  | readBytes a n => exact congrArg (List.map Region.bounds) (b.regions_readBytes a n)
  | writeByte a v => exact b.bounds_writeChunk a v []
  | writeWord a v => exact b.bounds_writeBytes a (wordBytes v)
  | writeLong a v => exact b.bounds_writeBytes a (longBytes v)
  | writeBytes a l => exact b.bounds_writeBytes a l
  | load start l => exact b.bounds_writeBytes (Address.ofValue start) l

/-! ## Chunks inside their regions -/

section Room

variable {a : Address}

omit [Device D] in
/-- The bytes after the first one of a chunk are cut off at the end of the region. -/
theorem position_following_le (h : r.contains a.value = true) (limit : Nat) :
    r.position a.value + (following (r.roomAt a.value) limit + 1) ≤ r.bytes.size := by
  have hposition := Region.position_lt_size h
  rw [following, Region.roomAt]
  omega

/-- A chunk that is read from a region ends inside its bytes. -/
theorem room_readChunk (h : b.regions.find? (·.contains a.value) = some r) (wanted : Nat) :
    r.position a.value + ((b.readChunk a wanted).1.rest.length + 1) ≤ r.bytes.size := by
  have hcontains : r.contains a.value = true :=
    List.find?_some (p := fun r : Region => r.contains a.value) h
  rw [readChunk, h]
  dsimp only
  rw [Bytes.length_slice]
  exact position_following_le hcontains _

/-- A chunk that is written to a region ends inside its bytes. -/
theorem room_writeChunk (h : b.regions.find? (·.contains a.value) = some r) (v : UInt8)
    (rest : List UInt8) :
    r.position a.value + ((b.writeChunk a v rest).1 + 1) ≤ r.bytes.size := by
  have hcontains : r.contains a.value = true :=
    List.find?_some (p := fun r : Region => r.contains a.value) h
  rw [writeChunk, writeRegions_eq, h]
  exact position_following_le hcontains _

end Room

/-! ## Everything that can be done to a backplane -/

/-- Something to do to a backplane. -/
inductive Deed (D : Type) where
  | addRegion (r : Region)
  | attach (d : D)
  | access (q : Request)

/-- Does what a deed says. A region that overlaps another leaves the backplane as it is. -/
def perform (b : Backplane D) : Deed D → Backplane D
  | .addRegion r =>
      match b.addRegion r with
      | .ok b => b
      | .error _ => b
  | .attach d => (b.attach d).1
  | .access q => (serve b q).2

/-- A device that is attached may hand over regions, and they are added like any others. -/
theorem RegionsApart.attach (hb : b.RegionsApart) (d : D) : (b.attach d).1.RegionsApart :=
  hb.addRegions (Device.handOver d).regions

theorem RegionsApart.serve (hb : b.RegionsApart) (q : Request) :
    (W65C816.serve b q).2.RegionsApart :=
  Region.pairwise_apart_of_bounds (b.bounds_serve q) hb

theorem RegionsApart.perform (hb : b.RegionsApart) (deed : Deed D) :
    (b.perform deed).RegionsApart := by
  cases deed with
  | addRegion r =>
      rw [Backplane.perform]
      cases h : b.addRegion r with
      | ok b' => exact hb.addRegion h
      | error e => exact hb
  | attach d => exact hb.attach d
  | access q => exact hb.serve q

/-- Whatever is done to a backplane keeps its regions apart, by induction on the deeds. -/
theorem RegionsApart.performAll (hb : b.RegionsApart) (deeds : List (Deed D)) :
    (deeds.foldl Backplane.perform b).RegionsApart := by
  induction deeds generalizing b with
  | nil => exact hb
  | cons deed deeds ih => exact ih (hb.perform deed)

end Backplane

/-- The flat regions of a backplane, whatever has been added to it and however it is used.

    * A region has an address or more, ends inside the address space, and has a byte for each of
      its addresses. No address is in two regions.
    * No request changes how many regions there are, or where they are. The chunks of a request
      stay inside the bytes of the region that serves them.
    * A region is added exactly when it shares no address with one that is there. Otherwise nothing
      changes, and the error tells the bounds of one with which it does.
    * Bytes make a region exactly when there are some and they end inside the address space. -/
theorem regions_stay_apart {D : Type} [Device D] (deeds : List (Backplane.Deed D)) :
    let b := deeds.foldl Backplane.perform Backplane.empty
    (∀ r ∈ b.regions, r.start ≤ r.last ∧ r.last ≤ 0xFFFFFF ∧
      r.bytes.size = r.last.toNat - r.start.toNat + 1) ∧
    (b.regions.Pairwise fun r s => ∀ a, ¬ (r.contains a = true ∧ s.contains a = true)) ∧
    (∀ q, (serve b q).2.regions.map (fun r => (r.start, r.last)) =
      b.regions.map fun r => (r.start, r.last)) ∧
    (∀ (c : Backplane D) (a : Address) r, c.regions.find? (·.contains a.value) = some r →
      (∀ wanted,
        r.position a.value + ((c.readChunk a wanted).1.rest.length + 1) ≤ r.bytes.size) ∧
      ∀ v rest, r.position a.value + ((c.writeChunk a v rest).1 + 1) ≤ r.bytes.size) ∧
    (∀ r, (∃ b', b.addRegion r = .ok b') ↔
      ∀ s ∈ b.regions, ∀ a, ¬ (s.contains a = true ∧ r.contains a = true)) ∧
    (∀ r b', b.addRegion r = .ok b' → b' = { b with regions := b.regions ++ [r] }) ∧
    (∀ r e, b.addRegion r = .error e → b.perform (.addRegion r) = b ∧
      ∃ s ∈ b.regions, e = .overlap r.start r.last s.start s.last ∧
        ∃ a : Address, s.contains a.value = true ∧ r.contains a.value = true) ∧
    (∀ start bytes, (∃ r, Region.ofBytes? start bytes = .ok r) ↔
      0 < bytes.size ∧ start.toNat + bytes.size ≤ 0x1000000) := by
  intro b
  have hempty : (Backplane.empty : Backplane D).RegionsApart := List.Pairwise.nil
  refine ⟨?_, hempty.performAll deeds, b.bounds_serve, ?_, b.addRegion_ok_iff, ?_, ?_,
    Region.ofBytes?_ok_iff⟩
  -- The bounds are facts about any region, which its own fields say.
  · intro r _
    have hn := r.nonempty
    have hs := r.inSpace
    rw [Address.spaceSize] at hs
    have hlast := r.toNat_last
    refine ⟨r.start_le_last, ?_, by omega⟩
    rw [UInt32.le_iff_toNat_le]
    have htop : (0xFFFFFF : UInt32).toNat = 0xFFFFFF := rfl
    omega
  -- The end of a chunk is a fact about any backplane.
  · intro c a r h
    exact ⟨Backplane.room_readChunk h, Backplane.room_writeChunk h⟩
  · intro r b' h
    exact (Backplane.addRegion_eq_ok h).2
  -- A region that is refused leaves the backplane as it is, and names one that it shares an address
  -- with.
  · intro r e h
    refine ⟨?_, Backplane.addRegion_eq_error h⟩
    rw [Backplane.perform, h]

/-- A region that is in use, and one that begins at its last address. -/
theorem overlap_refused :
    let r : Region := ⟨0x1000, ⟨#[0x11, 0x22]⟩, by decide, by decide⟩
    let s : Region := ⟨0x1001, ⟨#[0x33]⟩, by decide, by decide⟩
    let b : Backplane Chip := [Backplane.Deed.addRegion r,
      .access (.writeByte ⟨0, 0x1001⟩ 0x44)].foldl Backplane.perform Backplane.empty
    b.addRegion s = .error (.overlap 0x1001 0x1001 0x1000 0x1001) ∧
      b.perform (.addRegion s) = b := by
  intro r s b
  have hrefused : b.addRegion s = .error (.overlap 0x1001 0x1001 0x1000 0x1001) := rfl
  obtain ⟨-, -, -, -, -, -, hunchanged, -⟩ := regions_stay_apart (D := Chip)
    [.addRegion r, .access (.writeByte ⟨0, 0x1001⟩ 0x44)]
  exact ⟨hrefused, (hunchanged s _ hrefused).1⟩

end W65C816
