import W65C816.Board

/-!
# The wiring of a board

The bus of a board is a region for all its memory. The chip that has handed the memory over is still
attached, but has no address left.

* `Board.wired` is such a bus, and `Board.Whole` says what is asked of the region.
* Memory answers below its size (`Board.read_wired`), and nobody above it
  (`Board.read_wired_above`, `Board.write_wired_above`).
* `Board.new_wired` and `Board.loadProgram_wired` find this bus on a new board and on one with a
  program. The size of the memory is a variable until then (`Board.memoryOf`).
-/

namespace W65C816

/-- What is put into a block is found there, as far as the block reaches. -/
theorem Bytes.get_putAll {b : ByteArray} {i : Nat} {l : List UInt8} (hfit : i + l.length ≤ b.size)
    {k : Nat} {v : UInt8} (hk : l[k]? = some v) : get (putAll b i l) (i + k) = v := by
  have hother : ∀ (b : ByteArray) {i j : Nat} (l : List UInt8), j < i →
      get (putAll b i l) j = get b j := by
    intro b i j l hj
    induction l generalizing b i with
    | nil => rfl
    | cons w rest ih =>
        rw [putAll, ih _ (Nat.lt_succ_of_lt hj), get_put, if_neg fun h => Nat.ne_of_gt hj h.1]
  induction l generalizing b i k with
  | nil =>
      rw [List.getElem?_nil] at hk
      contradiction
  | cons w rest ih =>
      rw [List.length_cons] at hfit
      rw [putAll]
      cases k with
      | zero =>
          obtain rfl := Option.some.inj hk
          exact (hother _ rest (Nat.lt_succ_self i)).trans
            ((get_put b i i w).trans (if_pos ⟨rfl, by omega⟩))
      | succ k =>
          have hrest := ih (b := put b i w) (i := i + 1) (by rw [size_put]; omega) hk
          rw [Nat.add_assoc, Nat.add_comm 1 k] at hrest
          exact hrest

namespace Backplane

variable {D : Type} [Device D] {b : Backplane D} {a : Address} {v : UInt8} {rest : List UInt8}

/-! ## Nobody answers -/

/-- Where nobody answers, a chunk is one byte and reads as zero. -/
theorem readChunk_nobody {n : Nat} (hregions : b.regions.find? (·.contains a.value) = none)
    (hdevices : readDevices a (min n (roomAbove a)) b.devices = none) :
    b.readChunk a n = (⟨0, []⟩, b) := by
  rw [readChunk, hregions]
  dsimp only
  rw [hdevices]

/-- Where nobody answers, a byte is lost. -/
theorem writeChunk_nobody
    (hregions : writeRegions a (min (rest.length + 1) (roomAbove a)) v rest b.regions = none)
    (hdevices : writeDevices a (min (rest.length + 1) (roomAbove a)) v rest b.devices = none) :
    b.writeChunk a v rest = (0, b) := by
  rw [writeChunk, hregions]
  dsimp only
  rw [hdevices]

end Backplane

namespace Board

/-- The bus of a board: a region for all its memory, and the chip that has handed it over. -/
def wired (r : Region) : Backplane Ram :=
  ⟨[r], [⟨0, ByteArray.empty, true⟩]⟩

/-- A region for the memory of a board. -/
structure Whole (r : Region) : Prop where
  start : r.start = 0
  size : r.bytes.size = memorySize

variable {r : Region} {a : Address}

theorem Whole.put (h : Whole r) (a : UInt32) (l : List UInt8) : Whole (r.put a l) :=
  ⟨h.start, by rw [Region.put, Bytes.size_putAll, h.size]⟩

theorem Whole.contains (h : Whole r) (ha : a.value.toNat < memorySize) :
    r.contains a.value = true := by
  refine decide_eq_true ⟨?_, ?_⟩
  · rw [h.start, UInt32.le_iff_toNat_le]
    exact Nat.zero_le _
  · rw [UInt32.le_iff_toNat_le, r.toNat_last, h.start, h.size]
    exact Nat.le_sub_one_of_lt (by rw [UInt32.toNat_zero, Nat.zero_add]; exact ha)

theorem Whole.not_contains (h : Whole r) (ha : memorySize ≤ a.value.toNat) :
    r.contains a.value = false := by
  refine decide_eq_false fun hin => ?_
  have hlast := UInt32.le_iff_toNat_le.mp hin.2
  have hn := r.nonempty
  rw [r.toNat_last, h.start, UInt32.toNat_zero] at hlast
  rw [h.size] at hlast hn
  omega

/-- The region starts at zero, so a position is the value of its address. -/
theorem Whole.position (h : Whole r) (a : UInt32) : r.position a = a.toNat := by
  rw [Region.position, h.start, UInt32.toNat_zero, Nat.sub_zero]

/-- Memory ends before bank 2. -/
theorem memorySize_le_value (offset : UInt16) :
    memorySize ≤ (Address.mk 2 offset).value.toNat := by
  rw [Address.toNat_value]
  show 0x20000 ≤ 2 * 0x10000 + offset.toNat
  omega

/-- The chip that has handed over its memory claims nothing. -/
theorem decode_emptied (a : Address) :
    Device.decode (⟨0, ByteArray.empty, true⟩ : Ram) a = none := by
  show (if (0 : UInt32) ≤ a.value ∧ (a.value - 0).toNat < 0 then some (a.value - 0)
    else none) = none
  exact if_neg fun h => Nat.not_lt_zero _ h.2

/-- The device on the board has given its bytes away, so it decodes nothing. -/
theorem readDevices_wired (a : Address) (limit : Nat) :
    Backplane.readDevices a limit (wired r).devices = none := by
  rw [wired, Backplane.readDevices, decode_emptied]
  rfl

theorem writeDevices_wired (a : Address) (limit : Nat) (v : UInt8) :
    Backplane.writeDevices a limit v [] (wired r).devices = none := by
  rw [wired, Backplane.writeDevices, decode_emptied]
  rfl

/-! ## Accesses -/

/-- Memory answers with what it holds. -/
theorem read_wired (h : Whole r) (ha : a.value.toNat < memorySize) :
    Bus.read (wired r) a = (r.get a.value, wired r) := by
  have hfind : (wired r).regions.find? (·.contains a.value) = some r :=
    List.find?_cons_of_pos (h.contains ha)
  show (((wired r).readChunk a 1).1.first, ((wired r).readChunk a 1).2) = _
  rw [Backplane.readChunk, hfind]

/-- A chunk that is read leaves the bus as it is. -/
theorem readChunk_wired (a : Address) (n : Nat) : ((wired r).readChunk a n).2 = wired r := by
  cases hfind : (wired r).regions.find? (·.contains a.value) with
  | some found => rw [Backplane.readChunk, hfind]
  | none => rw [Backplane.readChunk_nobody hfind (readDevices_wired a _)]

theorem readBytes_wired (a : Address) (n : Nat) : ((wired r).readBytes a n).2 = wired r := by
  induction n using Nat.strongRecOn generalizing a with
  | ind n ih =>
      rw [Backplane.readBytes]
      split
      · rfl
      · have hchunk := readChunk_wired (r := r) a n
        generalize (wired r).readChunk a n = p at hchunk
        obtain ⟨chunk, b⟩ := p
        obtain rfl : b = wired r := hchunk
        exact ih _ (by omega) _

theorem readWordInBank_wired (a : Address) : (Bus.readWordInBank (wired r) a).2 = wired r := by
  have hread : ∀ a, (Bus.read (wired r) a).2 = wired r := fun a => readChunk_wired a 1
  rw [Bus.readWordInBank]
  split
  · dsimp only
    rw [hread, hread]
  · exact readBytes_wired a 2

/-- A reset reads its vector, which leaves the bus as it is. -/
theorem start_wired (c : Configuration) : (Machine.start (wired r) c).machine.bus = wired r :=
  readWordInBank_wired ⟨0, c.vectors.emulation.reset⟩

/-- Nobody answers above it. -/
theorem read_wired_above (h : Whole r) (ha : memorySize ≤ a.value.toNat) :
    Bus.read (wired r) a = (0, wired r) := by
  have hregions : (wired r).regions.find? (·.contains a.value) = none := by
    rw [wired, List.find?_cons_of_neg (by rw [h.not_contains ha]; exact Bool.false_ne_true)]
    rfl
  have hchunk := Backplane.readChunk_nobody (n := 1) hregions (readDevices_wired a _)
  show (((wired r).readChunk a 1).1.first, ((wired r).readChunk a 1).2) = _
  rw [hchunk]

/-- What is written there is lost. -/
theorem write_wired_above (h : Whole r) (ha : memorySize ≤ a.value.toNat) (v : UInt8) :
    Bus.write (wired r) a v = wired r := by
  have hregions : ∀ limit, Backplane.writeRegions a limit v [] (wired r).regions = none := by
    intro limit
    rw [wired, Backplane.writeRegions, h.not_contains ha]
    rfl
  have hchunk : (wired r).writeChunk a v [] = (0, wired r) :=
    Backplane.writeChunk_nobody (hregions _) (writeDevices_wired a _ v)
  exact congrArg Prod.snd hchunk

/-- A block that memory has room for is put into it in one piece. -/
theorem writeBytes_wired (h : Whole r) {v : UInt8} {rest : List UInt8}
    (hfit : a.value.toNat + (rest.length + 1) ≤ memorySize) :
    (wired r).writeBytes a (v :: rest) = wired (r.put a.value (v :: rest)) := by
  have hmemory : memorySize = 0x20000 := rfl
  have hcontains : r.contains a.value = true := h.contains (by omega)
  have hmore : Backplane.following (r.roomAt a.value)
      (min (rest.length + 1) (Backplane.roomAbove a)) = rest.length := by
    rw [Backplane.following, Backplane.roomAbove, Region.roomAt, h.position, h.size,
      Address.spaceSize]
    omega
  have hchunk : (wired r).writeChunk a v rest =
      (rest.length, wired (r.put a.value (v :: rest))) := by
    simp only [Backplane.writeChunk, wired, Backplane.writeRegions, hcontains, if_true, hmore,
      List.take_length]
  rw [Backplane.writeBytes, hchunk]
  dsimp only
  rw [List.drop_length, Backplane.writeBytes]

/-- A block is found where it has been put. -/
theorem get_put_of_getElem? (h : Whole r) {l : List UInt8}
    (hfit : a.value.toNat + l.length ≤ memorySize) {k : Nat} {v : UInt8} (hk : l[k]? = some v)
    {x : Address} (hx : x.value.toNat = a.value.toNat + k) : (r.put a.value l).get x.value = v := by
  rw [Region.get, (h.put a.value l).position, hx]
  show Bytes.get (Bytes.putAll r.bytes (r.position a.value) l) _ = v
  rw [h.position]
  exact Bytes.get_putAll (by rw [h.size]; exact hfit) hk

/-! ## Boards -/

/-- A flat chip with contents that fit hands them over as one region. -/
theorem handOver_flat {chip : Ram} (hflat : chip.flat = true) (hn : 0 < chip.bytes.size)
    (hs : chip.base.toNat + chip.bytes.size ≤ Address.spaceSize) :
    ∃ r, Device.handOver chip = ⟨[r], { chip with bytes := ByteArray.empty }, []⟩ ∧
      r.start = chip.base ∧ r.bytes = chip.bytes := by
  obtain ⟨r, hr, hstart, hbytes⟩ := Region.ofBytes?_eq_ok hn hs
  have hgives : ¬ (!chip.flat || chip.size == 0) = true := by
    rw [hflat, Ram.size]
    simpa using Nat.ne_of_gt hn
  refine ⟨r, ?_, hstart, hbytes⟩
  simp only [Device.handOver]
  rw [if_neg hgives, hr]

/-- Flat memory from address 0 on makes the bus of a board. -/
theorem attach_ofSize {size : Nat} (hn : 0 < size) (hs : size ≤ Address.spaceSize) :
    ∃ r, ((Backplane.empty : Backplane Ram).attach (.ofSize 0 size true)).1 = wired r ∧
      r.start = 0 ∧ r.bytes.size = size := by
  have hsize : (Ram.ofSize 0 size true).bytes.size = size := Bytes.size_replicate size 0
  have hpos : 0 < (Ram.ofSize 0 size true).bytes.size := by
    rw [hsize]
    exact hn
  have hfit : (0 : UInt32).toNat + (Ram.ofSize 0 size true).bytes.size ≤ Address.spaceSize := by
    rw [hsize, UInt32.toNat_zero, Nat.zero_add]
    exact hs
  obtain ⟨r, hover, hstart, hbytes⟩ := handOver_flat rfl hpos hfit
  refine ⟨r, ?_, hstart, ?_⟩
  · rw [Backplane.attach, hover]
    rfl
  · rw [hbytes, hsize]

/-- The memory of a new board, were it of another size. The size is a variable, so that nothing
    computes the block of zeros. -/
def memoryOf (size : Nat) : Backplane Ram :=
  let (bus, _) := (Backplane.empty : Backplane Ram).attach (.ofSize 0 size true)
  bus.load 0xFFFC (wordBytes defaultStart)

theorem memory_eq : memory = memoryOf memorySize := rfl

/-- The memory is made for any size, so that nothing has to compute one of so many bytes. -/
theorem memoryOf_wired {size : Nat} (h : size = memorySize) :
    ∃ r, memoryOf size = wired r ∧ Whole r := by
  have hspace : memorySize ≤ Address.spaceSize := by decide
  have hpos : 0 < size := by
    rw [h]
    decide
  obtain ⟨r, hattach, hstart, hsize⟩ := attach_ofSize hpos (by rw [h]; exact hspace)
  have hwhole : Whole r := ⟨hstart, hsize.trans h⟩
  have hload : (wired r).writeBytes (.ofValue 0xFFFC) (wordBytes defaultStart) =
      wired (r.put (Address.ofValue 0xFFFC).value (wordBytes defaultStart)) :=
    writeBytes_wired hwhole (by decide)
  refine ⟨_, ?_, hwhole.put (Address.ofValue 0xFFFC).value (wordBytes defaultStart)⟩
  -- A bus with a name of its own can be taken apart without computing the memory.
  rw [memoryOf]
  generalize (Backplane.empty : Backplane Ram).attach (.ofSize 0 size true) = p at hattach
  obtain ⟨bus, notices⟩ := p
  obtain rfl : bus = wired r := hattach
  exact hload

/-- The memory of a new board. -/
theorem memory_wired : ∃ r, memory = wired r ∧ Whole r := by
  rw [memory_eq]
  exact memoryOf_wired rfl

/-- A new board has just been reset, which leaves its memory as it is. -/
theorem new_wired :
    ∃ r, Whole r ∧ new.machine = (Machine.start (wired r) .standard).machine ∧
      new.machine.bus = wired r := by
  obtain ⟨r, hmemory, hwhole⟩ := memory_wired
  have hnew : new.machine = (Machine.start (wired r) .standard).machine := by
    rw [new, hmemory]
  exact ⟨r, hwhole, hnew, by rw [hnew, start_wired]⟩

/-- A new board has counted nothing. -/
theorem cycles_new : new.machine.core.cycles = 0 := by
  obtain ⟨r, -, hnew, -⟩ := new_wired
  rw [hnew]
  rfl

/-- A program is written to memory, and the core goes to its start. -/
theorem loadProgram_machine (b : Board) (program : List UInt8) (start : UInt32) :
    (b.loadProgram program start).machine =
      ⟨b.machine.core.jump (.ofValue start), b.machine.bus.load start program⟩ := rfl

/-- A program that fits is put into the memory of a new board, and the core goes to its start. -/
theorem loadProgram_wired {v : UInt8} {rest : List UInt8} {start : UInt32}
    (hfit : (Address.ofValue start).value.toNat + (rest.length + 1) ≤ memorySize) :
    ∃ r, Whole r ∧ (new.loadProgram (v :: rest) start).machine =
      ⟨(Machine.start (wired r) .standard).machine.core.jump (.ofValue start),
        wired (r.put (Address.ofValue start).value (v :: rest))⟩ := by
  obtain ⟨r, hwhole, hnew, hbus⟩ := new_wired
  refine ⟨r, hwhole, ?_⟩
  rw [loadProgram_machine, hbus, Backplane.load, writeBytes_wired hwhole hfit, hnew]

end Board

end W65C816
