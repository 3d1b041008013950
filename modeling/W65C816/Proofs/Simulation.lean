import W65C816.Memory
import W65C816.Proofs.Cells

/-!
# Buses that cannot be told apart

A relation between the states of two buses is a `Bus.Simulation` when every access gives the same
result on both and leaves related states behind. Whoever works through the accesses of a bus alone
then sees no difference, which is how a program for one bus is carried over to another.

* `Bus.Simulation.inBank` and its kin are the accesses that stay in a bank: they are made of the
  others, so they are alike as well.
* `Bus.Simulation.join` relates two buses that both simulate a third.
* `Memory.simulation`: flat memory is the map whose cells are all writable.
-/

namespace W65C816

variable {B B' C : Type}

/-- Two accesses with the same result that leave related buses behind. -/
def Alike {α : Type} (T : B → B' → Prop) (p : α × B) (q : α × B') : Prop :=
  p.1 = q.1 ∧ T p.2 q.2

namespace Bus

/-- A relation between two buses that no access can get out of, and under which none gives a
    different result. -/
structure Simulation [Bus B] [Bus B'] (T : B → B' → Prop) : Prop where
  read : ∀ {b b'} (a : Address), T b b' → Alike T (Bus.read b a) (Bus.read b' a)
  write : ∀ {b b'} (a : Address) (v : UInt8), T b b' → T (Bus.write b a v) (Bus.write b' a v)
  peek : ∀ {b b'} (a : Address), T b b' → Bus.peek b a = Bus.peek b' a
  readWord : ∀ {b b'} (a : Address), T b b' → Alike T (Bus.readWord b a) (Bus.readWord b' a)
  writeWord : ∀ {b b'} (a : Address) (v : UInt16), T b b' →
    T (Bus.writeWord b a v) (Bus.writeWord b' a v)
  readLong : ∀ {b b'} (a : Address), T b b' → Alike T (Bus.readLong b a) (Bus.readLong b' a)
  writeLong : ∀ {b b'} (a : Address) (v : UInt32), T b b' →
    T (Bus.writeLong b a v) (Bus.writeLong b' a v)
  readPointer : ∀ {b b'} (a : Address), T b b' →
    Alike T (Bus.readPointer b a) (Bus.readPointer b' a)
  irqActive : ∀ {b b'}, T b b' → Bus.irqActive b = Bus.irqActive b'

namespace Simulation

variable [Bus B] [Bus B'] [Bus C] {T : B → B' → Prop}

/-! ## Accesses that stay in a bank -/

theorem readWordInBank (h : Simulation T) {b : B} {b' : B'} (a : Address) (hT : T b b') :
    Alike T (Bus.readWordInBank b a) (Bus.readWordInBank b' a) := by
  by_cases hend : a.offset = 0xFFFF
  · obtain ⟨hlow, hT₁⟩ := h.read a hT
    obtain ⟨hhigh, hT₂⟩ := h.read (a.inBank 1) hT₁
    rw [Bus.readWordInBank, Bus.readWordInBank, if_pos hend, if_pos hend]
    exact ⟨congrArg₂ joinBytes hlow hhigh, hT₂⟩
  · rw [Bus.readWordInBank, Bus.readWordInBank, if_neg hend, if_neg hend]
    exact h.readWord a hT

theorem writeWordInBank (h : Simulation T) {b : B} {b' : B'} (a : Address) (v : UInt16)
    (hT : T b b') : T (Bus.writeWordInBank b a v) (Bus.writeWordInBank b' a v) := by
  by_cases hend : a.offset = 0xFFFF
  · rw [Bus.writeWordInBank, Bus.writeWordInBank, if_pos hend, if_pos hend]
    exact h.write _ _ (h.write _ _ hT)
  · rw [Bus.writeWordInBank, Bus.writeWordInBank, if_neg hend, if_neg hend]
    exact h.writeWord a v hT

/-- Near the end of its bank a pointer is read as a word and a byte behind it. -/
theorem readPointerInBank (h : Simulation T) {b : B} {b' : B'} (a : Address) (hT : T b b') :
    Alike T (Bus.readPointerInBank b a) (Bus.readPointerInBank b' a) := by
  by_cases hroom : a.offset ≤ 0xFFFD
  · rw [Bus.readPointerInBank, Bus.readPointerInBank, if_pos hroom, if_pos hroom]
    exact h.readPointer a hT
  · obtain ⟨hoffset, hT₁⟩ := h.readWordInBank a hT
    obtain ⟨hbank, hT₂⟩ := h.read (a.inBank 2) hT₁
    rw [Bus.readPointerInBank, Bus.readPointerInBank, if_neg hroom, if_neg hroom]
    exact ⟨congrArg₂ Address.mk hbank hoffset, hT₂⟩

/-! ## Two buses and a third -/

/-- Two buses that cannot be told from a third cannot be told from each other. -/
theorem join {R : B → C → Prop} {S : B' → C → Prop} (hR : Simulation R) (hS : Simulation S) :
    Simulation fun b b' => ∃ c, R b c ∧ S b' c where
  read a := by
    rintro ⟨c, hb, hb'⟩
    obtain ⟨he, hr⟩ := hR.read a hb
    obtain ⟨he', hs⟩ := hS.read a hb'
    exact ⟨he.trans he'.symm, _, hr, hs⟩
  write a v := by
    rintro ⟨c, hb, hb'⟩
    exact ⟨_, hR.write a v hb, hS.write a v hb'⟩
  peek a := by
    rintro ⟨c, hb, hb'⟩
    exact (hR.peek a hb).trans (hS.peek a hb').symm
  readWord a := by
    rintro ⟨c, hb, hb'⟩
    obtain ⟨he, hr⟩ := hR.readWord a hb
    obtain ⟨he', hs⟩ := hS.readWord a hb'
    exact ⟨he.trans he'.symm, _, hr, hs⟩
  writeWord a v := by
    rintro ⟨c, hb, hb'⟩
    exact ⟨_, hR.writeWord a v hb, hS.writeWord a v hb'⟩
  readLong a := by
    rintro ⟨c, hb, hb'⟩
    obtain ⟨he, hr⟩ := hR.readLong a hb
    obtain ⟨he', hs⟩ := hS.readLong a hb'
    exact ⟨he.trans he'.symm, _, hr, hs⟩
  writeLong a v := by
    rintro ⟨c, hb, hb'⟩
    exact ⟨_, hR.writeLong a v hb, hS.writeLong a v hb'⟩
  readPointer a := by
    rintro ⟨c, hb, hb'⟩
    obtain ⟨he, hr⟩ := hR.readPointer a hb
    obtain ⟨he', hs⟩ := hS.readPointer a hb'
    exact ⟨he.trans he'.symm, _, hr, hs⟩
  irqActive := by
    rintro b b' ⟨c, hb, hb'⟩
    exact (hR.irqActive hb).trans (hS.irqActive hb').symm

end Simulation

end Bus

/-! ## Numbers made of bytes -/

theorem ofNat_littleEndian_pair (low high : UInt8) :
    UInt16.ofNat (littleEndian [low, high]) = joinBytes low high := by
  have hl := low.toNat_lt
  have hh := high.toNat_lt
  apply UInt16.toNat_inj.mp
  rw [toNat_joinBytes, UInt16.toNat_ofNat', littleEndian, littleEndian, littleEndian]
  omega

/-- A 24-bit number is an address: two bytes of offset and one of bank. -/
theorem ofValue_littleEndian_triple (low high bank : UInt8) :
    Address.ofValue (UInt32.ofNat (littleEndian [low, high, bank])) =
      ⟨bank, joinBytes low high⟩ := by
  have hl := low.toNat_lt
  have hh := high.toNat_lt
  have hb := bank.toNat_lt
  apply Address.value_inj
  apply UInt32.toNat_inj.mp
  rw [Address.toNat_value_ofValue, Address.toNat_value, UInt32.toNat_ofNat', Address.spaceSize]
  simp only [toNat_joinBytes, littleEndian]
  omega

/-! ## Flat memory -/

namespace Memory

/-- Flat memory as a map of cells, all of them writable. -/
def cells (m : Memory) : CellMap := fun a =>
  ⟨m.get a, true⟩

/-- Writing to flat memory writes the cell, which is always writable. -/
theorem cells_set (m : Memory) (a : Address) (v : UInt8) :
    (m.set a v).cells = m.cells.overwrite a [v] := by
  funext x
  rw [CellMap.overwrite_singleton, cells, get_set, cells]
  by_cases h : a = x
  · rw [if_pos h, if_pos h]
    rfl
  · rw [if_neg h, if_neg h]

/-- A block that is written byte by byte overwrites the cells it falls on, the last byte on each
    counting. -/
theorem cells_writeEach (m : Memory) (a : Address) (l : List UInt8) :
    (Bus.writeEach m a l).cells = m.cells.overwrite a l := by
  induction l generalizing m a with
  | nil => rfl
  | cons v rest ih =>
      rw [Bus.writeEach, ih, CellMap.overwrite_cons]
      exact congrArg (CellMap.overwrite · _ _) (cells_set m a v)

/-- A block that is read byte by byte shows its cells and leaves the memory as it was. -/
theorem readEach_eq (m : Memory) (a : Address) (n : Nat) :
    Bus.readEach m a n = (m.cells.bytes a n, m) := by
  induction n generalizing a with
  | zero => rfl
  | succ n ih =>
      rw [CellMap.bytes_succ]
      show ((m.get a :: (Bus.readEach m (a.onward 1) n).1), (Bus.readEach m (a.onward 1) n).2) = _
      rw [ih]
      rfl

/-- Flat memory cannot be told from the map of its cells. -/
theorem simulation : Bus.Simulation fun (m : Memory) (c : CellMap) => m.cells = c where
  read a := by
    rintro rfl
    exact ⟨rfl, rfl⟩
  write a v := by
    rintro rfl
    exact cells_set _ a v
  peek a := by
    rintro rfl
    rfl
  readWord a := by
    rintro rfl
    refine ⟨?_, rfl⟩
    show joinBytes _ _ = UInt16.ofNat (littleEndian (CellMap.bytes _ a 2))
    rw [CellMap.bytes_two, ofNat_littleEndian_pair]
    rfl
  writeWord a v := by
    rintro rfl
    exact cells_writeEach _ a (wordBytes v)
  readLong a := by
    rintro rfl
    refine ⟨?_, rfl⟩
    show UInt32.ofNat _ = UInt32.ofNat (littleEndian (CellMap.bytes _ a 4))
    rw [CellMap.bytes_four]
    rfl
  writeLong a v := by
    rintro rfl
    show (set (set (set (set _ a _) (a.onward 1) _) (a.onward 2) _) (a.onward 3) _).cells = _
    -- Flat memory writes a long number byte by byte, without a block.
    rw [cells_set, cells_set, cells_set, cells_set]
    exact (CellMap.overwrite_four ..).symm
  readPointer a := by
    rintro rfl
    refine ⟨?_, rfl⟩
    show Address.mk _ _ = Address.ofValue (UInt32.ofNat (littleEndian (CellMap.bytes _ a 3)))
    rw [CellMap.bytes_three, ofValue_littleEndian_triple]
    rfl
  irqActive _ := rfl

end Memory

end W65C816
