import Mathlib.Data.List.Pairwise
import W65C816.Proofs.Backplane.Windows

/-!
# Tidy backplanes

On a tidy backplane no two attachments share an address. Then it does not matter who comes first:
all windows can be read and written through, and the backplane cannot be told from the map of its
cells.

* `cellsOf` is the map of cells that a list of attachments shows. `cellsOf_eq_of_shows`: for
  attachments that lie apart it is a matter of membership, not of order.
* `Tidy.readsThrough` and `Tidy.writesThrough` meet the conditions for windows.
* `Backplane.simulation` says that a tidy backplane is the map of its cells, for every request.
-/

namespace W65C816

namespace Attachment

/-- Two attachments that share no address. -/
def Apart (x y : Attachment) : Prop :=
  ∀ a, ¬ (x.holds a = true ∧ y.holds a = true)

theorem Apart.symm {x y : Attachment} (h : x.Apart y) : y.Apart x := by
  rintro a ⟨hy, hx⟩
  exact h a ⟨hx, hy⟩

instance : Std.Symm Apart := ⟨fun _ _ h => h.symm⟩

/-- Attachments lie apart if one ends where the other begins, or before. -/
theorem apart_of_le {x y : Attachment} (h : x.base.toNat + x.bytes.size ≤ y.base.toNat) :
    x.Apart y := by
  rintro a ⟨hx, hy⟩
  obtain ⟨-, hlt⟩ := holds_iff.mp hx
  obtain ⟨hb, -⟩ := holds_iff.mp hy
  omega

/-- The map of cells that a list of attachments shows, the first that has an address answering. -/
def cellsOf (l : List Attachment) : CellMap := fun a =>
  match l.find? (·.holds a) with
  | some x => x.cell a
  | none => Cell.absent

/-- Some attachment of the list shows the cell `c` at `a`. -/
def Shows (l : List Attachment) (a : Address) (c : Cell) : Prop :=
  ∃ x ∈ l, x.holds a = true ∧ x.cell a = c

/-- Of attachments that lie apart, only one has an address. -/
theorem eq_of_holds {l : List Attachment} (hl : l.Pairwise Apart) {x y : Attachment}
    (hx : x ∈ l) (hy : y ∈ l) {a : Address} (hxa : x.holds a = true) (hya : y.holds a = true) :
    x = y := by
  by_contra hne
  exact hl.forall hx hy hne a ⟨hxa, hya⟩

/-- Whoever has an address is the first who has it, wherever it stands in the list. -/
theorem find?_eq_some {l : List Attachment} (hl : l.Pairwise Apart) {x : Attachment}
    (hx : x ∈ l) {a : Address} (hxa : x.holds a = true) : l.find? (·.holds a) = some x := by
  cases hy : l.find? (·.holds a) with
  | none => exact absurd hxa (List.find?_eq_none.mp hy x hx)
  | some y =>
      have hya : y.holds a = true := List.find?_some (p := fun x : Attachment => x.holds a) hy
      rw [eq_of_holds hl (List.mem_of_find?_eq_some hy) hx hya hxa]

theorem cellsOf_of_mem {l : List Attachment} (hl : l.Pairwise Apart) {x : Attachment}
    (hx : x ∈ l) {a : Address} (hxa : x.holds a = true) : cellsOf l a = x.cell a := by
  rw [cellsOf, find?_eq_some hl hx hxa]

/-- Attachments that lie apart show the same cells as others, if they show the same at all. -/
theorem cellsOf_eq_of_shows {l l' : List Attachment} (hl' : l'.Pairwise Apart)
    (h : ∀ a c, Shows l a c ↔ Shows l' a c) : cellsOf l = cellsOf l' := by
  funext a
  cases hx : l.find? (·.holds a) with
  | some x =>
      have hxa : x.holds a = true := List.find?_some (p := fun x : Attachment => x.holds a) hx
      obtain ⟨y, hy, hya, hcell⟩ := (h a (x.cell a)).mp ⟨x, List.mem_of_find?_eq_some hx, hxa, rfl⟩
      rw [cellsOf, hx, cellsOf_of_mem hl' hy hya]
      exact hcell.symm
  | none =>
      -- Nobody in the second list has the address either, or the first one would show it too.
      have hno : l'.find? (·.holds a) = none := by
        rw [List.find?_eq_none]
        intro y hy hya
        obtain ⟨x, hmem, hxa, -⟩ := (h a (y.cell a)).mpr ⟨y, hy, hya, rfl⟩
        exact List.find?_eq_none.mp hx x hmem hxa
      rw [cellsOf, hx, cellsOf, hno]

/-- What is shown does not depend on the order of the list. -/
theorem shows_perm {l l' : List Attachment} (h : l.Perm l') (a : Address) (c : Cell) :
    Shows l a c ↔ Shows l' a c := by
  constructor
  · rintro ⟨x, hx, hxa⟩
    exact ⟨x, h.mem_iff.mp hx, hxa⟩
  · rintro ⟨x, hx, hxa⟩
    exact ⟨x, h.mem_iff.mpr hx, hxa⟩

end Attachment

namespace Backplane

open Attachment

/-- No address belongs to two attachments. -/
def Tidy (b : Backplane Chip) : Prop :=
  b.attachments.Pairwise Apart

/-! ## Accesses to a tidy backplane -/

/-- Where nobody shares an address, nothing lies under a window. -/
theorem Tidy.readsThrough {b : Backplane Chip} (hb : b.Tidy) : b.ReadsThrough := by
  intro a x hx a' _ hx'
  have hcell : b.cells a' = x.cell a' := cellsOf_of_mem hb (List.mem_of_find?_eq_some hx) hx'
  rw [hcell]
  rfl

theorem Tidy.writesThrough {b : Backplane Chip} (hb : b.Tidy) : b.WritesThrough := by
  intro a x hx _ a' _ hx'
  exact find?_eq_some hb (List.mem_of_find?_eq_some hx) hx'

/-- Writing moves nothing, so it keeps a backplane tidy. -/
theorem Tidy.write {b : Backplane Chip} (hb : b.Tidy) (a : Address) (v : UInt8) :
    (Bus.write b a v).Tidy := by
  have hholds : (Bus.write b a v).attachments.map holds = b.attachments.map holds := by
    rw [attachments_write]
    exact map_updateFirst b.attachments fun x => funext (x.holds_put a [v])
  rw [Tidy] at hb ⊢
  have hmap : ∀ l : List Attachment, l.Pairwise Apart ↔
      (l.map holds).Pairwise fun p q => ∀ a, ¬ (p a = true ∧ q a = true) := by
    intro l
    rw [List.pairwise_map]
    rfl
  rw [hmap] at hb ⊢
  rw [hholds]
  exact hb

theorem Tidy.writeEach {b : Backplane Chip} (hb : b.Tidy) (a : Address) (l : List UInt8) :
    (Bus.writeEach b a l).Tidy := by
  induction l generalizing b a with
  | nil => exact hb
  | cons v rest ih => exact ih (hb.write a v) (a.onward 1)

/-- A block that is written in chunks does what it does byte by byte. -/
theorem Tidy.writeBytes {b : Backplane Chip} (hb : b.Tidy) (a : Address) (l : List UInt8) :
    (b.writeBytes a l).Tidy ∧ (b.writeBytes a l).cells = b.cells.overwrite a l := by
  rw [hb.writesThrough.writeBytes_eq]
  exact ⟨hb.writeEach a l, cells_writeEach b a l⟩

/-- Whatever the layout, readings leave no trace. -/
theorem snd_readBytes (b : Backplane Chip) (a : Address) (n : Nat) : (b.readBytes a n).2 = b := by
  induction n using Nat.strongRecOn generalizing a with
  | ind n ih =>
      rcases Nat.eq_zero_or_pos n with rfl | hn
      · rw [readBytes]
        rfl
      · obtain ⟨hpos, -⟩ := b.length_chunkBytes_le a hn
        rw [readBytes_pos b a hn]
        exact ih (n - (b.chunkBytes a n).length) (by omega) _

theorem snd_serve (b : Backplane Chip) {q : Request} (hq : q.isReading = true) :
    (serve b q).2 = b := by
  cases q with
  | readByte a => exact congrArg Prod.snd (read_eq b a)
  | peekByte a => rfl
  | readWord a => exact snd_readBytes b a 2
  | readLong a => exact snd_readBytes b a 4
  | readPointer a => exact snd_readBytes b a 3
  | readBytes a n => exact snd_readBytes b a n
  | writeByte a v => cases hq
  | writeWord a v => cases hq
  | writeLong a v => cases hq
  | writeBytes a l => cases hq
  | load start l => cases hq

/-- A tidy backplane cannot be told from the map of its cells. -/
theorem simulation :
    Blocks.Simulation fun (b : Backplane Chip) (m : CellMap) => b.Tidy ∧ b.cells = m where
  read {b} _ a := by
    rintro ⟨hb, rfl⟩
    rw [read_eq]
    exact ⟨rfl, hb, rfl⟩
  write {b} _ a v := by
    rintro ⟨hb, rfl⟩
    exact ⟨hb.write a v, cells_write b a v⟩
  peek {b} _ a := by
    rintro ⟨-, rfl⟩
    exact peek_eq b a
  readWord {b} _ a := by
    rintro ⟨hb, rfl⟩
    show Alike _ (UInt16.ofNat (littleEndian (b.readBytes a 2).1), (b.readBytes a 2).2) _
    rw [hb.readsThrough.readBytes_eq]
    exact ⟨rfl, hb, rfl⟩
  writeWord {b} _ a v := by
    rintro ⟨hb, rfl⟩
    exact hb.writeBytes a (wordBytes v)
  readLong {b} _ a := by
    rintro ⟨hb, rfl⟩
    show Alike _ (UInt32.ofNat (littleEndian (b.readBytes a 4).1), (b.readBytes a 4).2) _
    rw [hb.readsThrough.readBytes_eq]
    exact ⟨rfl, hb, rfl⟩
  writeLong {b} _ a v := by
    rintro ⟨hb, rfl⟩
    exact hb.writeBytes a (longBytes v)
  readPointer {b} _ a := by
    rintro ⟨hb, rfl⟩
    show Alike _ (Address.ofValue (UInt32.ofNat (littleEndian (b.readBytes a 3).1)),
      (b.readBytes a 3).2) _
    rw [hb.readsThrough.readBytes_eq]
    exact ⟨rfl, hb, rfl⟩
  irqActive {b} _ _ := irqActive_eq b
  readBytes {b} _ a n := by
    rintro ⟨hb, rfl⟩
    show Alike _ (b.readBytes a n) _
    rw [hb.readsThrough.readBytes_eq]
    exact ⟨rfl, hb, rfl⟩
  writeBytes {b} _ a l := by
    rintro ⟨hb, rfl⟩
    exact hb.writeBytes a l
  load {b} _ start l := by
    rintro ⟨hb, rfl⟩
    exact hb.writeBytes (Address.ofValue start) l

end Backplane

end W65C816
