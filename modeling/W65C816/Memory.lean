import W65C816.Bus
import W65C816.Memory.Bytes
import W65C816.Memory.Tree

/-!
# Flat memory

`Memory` is a bus that is nothing but 16 MiB of writable bytes, all zero at first. It is for
programs and tests that need no devices.

The bytes lie on 65536 pages, which are the leaves of a tree. A page is not made before something
is written to it, so a fresh memory is small.

* `Memory.get` and `Memory.set` are the contents, with the law `Memory.get_set`.
* `Memory.load` writes a block, which wraps at the top of the address space.
-/

namespace W65C816

/-- A page: 256 bytes. -/
structure Page where
  bytes : ByteArray
  size_eq : bytes.size = 0x100

namespace Page

/-- The page of zeros. -/
def blank : Page :=
  ⟨Bytes.replicate 0x100 0, Bytes.size_replicate _ _⟩

/-- The byte at a position on the page. -/
def get (p : Page) (i : UInt8) : UInt8 :=
  Bytes.get p.bytes i.toNat

/-- Replaces the byte at a position on the page. -/
def set (i v : UInt8) (p : Page) : Page :=
  ⟨Bytes.put p.bytes i.toNat v, by rw [Bytes.size_put, p.size_eq]⟩

theorem get_blank (i : UInt8) : blank.get i = 0 := by
  rw [get, blank, Bytes.get_replicate]
  exact ite_self 0

/-- A page holds what was written to it last. -/
theorem get_set (p : Page) (i j v : UInt8) : (p.set i v).get j = if i = j then v else p.get j := by
  have hi : i.toNat < p.bytes.size := by rw [p.size_eq]; exact i.toNat_lt
  simp only [get, set, Bytes.get_put, UInt8.toNat_inj, hi, and_true]

end Page

/-- All 16 MiB as writable memory. -/
structure Memory where
  pages : Tree Page 16

namespace Memory

/-- Memory that is zero everywhere. -/
def blank : Memory :=
  ⟨Tree.uniform Page.blank 16⟩

instance : Inhabited Memory := ⟨blank⟩

/-- Number of the page an address lies on. -/
def pageOf (a : Address) : Nat :=
  a.bank.toNat * 0x100 + (highByte a.offset).toNat

/-- The byte at an address. -/
def get (m : Memory) (a : Address) : UInt8 :=
  (m.pages.get (pageOf a)).get (lowByte a.offset)

/-- Replaces the byte at an address. -/
def set (m : Memory) (a : Address) (v : UInt8) : Memory :=
  ⟨m.pages.update (Page.set (lowByte a.offset) v) (pageOf a)⟩

instance : Bus Memory where
  read m a := (m.get a, m)
  write := set
  peek := get

/-- Writes a block of bytes from `start` on. -/
def load (m : Memory) (start : UInt32) (bytes : List UInt8) : Memory :=
  Bus.writeEach m (Address.ofValue start) bytes

/-! ## Contents -/

/-- There are 0x10000 pages. -/
theorem pageOf_lt (a : Address) : pageOf a < 0x10000 := by
  have hb := a.bank.toNat_lt
  have ho := (highByte a.offset).toNat_lt
  rw [pageOf]
  omega

/-- The bits of a page that the tree does not look at are not set. -/
theorem testBit_pageOf (a : Address) {k : Nat} (hk : 16 ≤ k) : (pageOf a).testBit k = false :=
  Nat.testBit_lt_two_pow
    (Nat.lt_of_lt_of_le (pageOf_lt a) (Nat.pow_le_pow_right (show 2 > 0 by decide) hk))

/-- Pages that differ do so in a bit that the tree looks at. -/
theorem exists_testBit_pageOf_ne {a b : Address} (h : pageOf a ≠ pageOf b) :
    ∃ k, k < 16 ∧ (pageOf a).testBit k ≠ (pageOf b).testBit k := by
  obtain ⟨k, hne⟩ := Nat.exists_testBit_ne_of_ne h
  refine ⟨k, Nat.lt_of_not_le ?_, hne⟩
  intro hk
  exact hne (by rw [testBit_pageOf a hk, testBit_pageOf b hk])

/-- An address is known by its page and its position there. -/
theorem eq_of_pageOf {a b : Address} (hp : pageOf a = pageOf b)
    (hl : lowByte a.offset = lowByte b.offset) : a = b := by
  have ha := (highByte a.offset).toNat_lt
  have hb := (highByte b.offset).toNat_lt
  rw [pageOf, pageOf] at hp
  have hbank : a.bank = b.bank := UInt8.toNat_inj.mp (by omega)
  have hhigh : highByte a.offset = highByte b.offset := UInt8.toNat_inj.mp (by omega)
  have hoffset : a.offset = b.offset := by
    rw [← joinBytes_lowByte_highByte a.offset, ← joinBytes_lowByte_highByte b.offset, hl, hhigh]
  cases a with
  | mk bank offset =>
      cases b with
      | mk bank' offset' =>
          cases hbank
          cases hoffset
          rfl

@[simp] theorem get_blank (a : Address) : blank.get a = 0 := by
  rw [get, blank, Tree.get_uniform, Page.get_blank]

/-- Memory holds what was written last. -/
theorem get_set (m : Memory) (a b : Address) (v : UInt8) :
    (m.set a v).get b = if a = b then v else m.get b := by
  by_cases hp : pageOf a = pageOf b
  · rw [get, set, ← hp, Tree.get_update_self, Page.get_set, get, ← hp]
    by_cases hl : lowByte a.offset = lowByte b.offset
    · rw [if_pos hl, if_pos (eq_of_pageOf hp hl)]
    · rw [if_neg hl, if_neg (fun h => hl (by rw [h]))]
  · have hne := exists_testBit_pageOf_ne hp
    rw [get, set, Tree.get_update_ne _ _ hne, ← get, if_neg (fun h => hp (by rw [h]))]

end Memory

end W65C816
