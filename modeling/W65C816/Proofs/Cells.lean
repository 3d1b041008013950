import Mathlib.Data.List.Induction
import W65C816.Bus

/-!
# Maps of cells

What a bus without moving parts is to its user: a byte at every address, which a write replaces or
does not. Memory has writable cells everywhere. A backplane has writable cells where its regions
and RAM chips lie, fixed cells where its ROM chips lie, and a fixed zero everywhere else.

* `CellMap.bytes` is what a reading of any length gives.
* `CellMap.overwrite` is what a writing of any length leaves. A writing can be longer than the
  address space and fall on one address twice; `lastAt_eq_some_iff` says that the last byte wins.
* A `CellMap` is itself a bus, on which longer accesses are little-endian numbers made of
  consecutive cells. It is the specification that real buses are compared with.
-/

namespace W65C816

/-- What lies at one address: a byte, and whether a write replaces it. -/
structure Cell where
  value : UInt8
  writable : Bool
  deriving DecidableEq, Repr

namespace Cell

/-- What nobody answers: it reads as zero and ignores writes. -/
def absent : Cell :=
  ⟨0, false⟩

/-- The cell after a byte has been written to it. -/
def write (c : Cell) (v : UInt8) : Cell :=
  if c.writable then ⟨v, true⟩ else c

/-- Of two bytes written to a cell, the second one counts. A cell that cannot be written ignores
    both. -/
theorem write_write (c : Cell) (u v : UInt8) : (c.write u).write v = c.write v := by
  by_cases h : c.writable = true
  · simp [write, h]
  · simp [write, h]

end Cell

/-- The last of the bytes of a block written from `a` on that falls on `x`. -/
def lastAt (a : Address) : List UInt8 → Address → Option UInt8
  | [], _ => none
  | v :: rest, x =>
      match lastAt (a.onward 1) rest x with
      | some u => some u
      | none => if a = x then some v else none

/-- The cell at every address. -/
abbrev CellMap := Address → Cell

namespace CellMap

/-- The `n` bytes from `a` on. -/
def bytes (m : CellMap) (a : Address) (n : Nat) : List UInt8 :=
  (List.range n).map fun i => (m (a.onward (UInt32.ofNat i))).value

/-- The cells after a block has been written from `a` on. -/
def overwrite (m : CellMap) (a : Address) (l : List UInt8) : CellMap := fun x =>
  match lastAt a l x with
  | some v => (m x).write v
  | none => m x

instance : Bus CellMap where
  read m a := ((m a).value, m)
  write m a v := m.overwrite a [v]
  peek m a := (m a).value
  readWord m a := (UInt16.ofNat (littleEndian (m.bytes a 2)), m)
  writeWord m a v := m.overwrite a (wordBytes v)
  readLong m a := (UInt32.ofNat (littleEndian (m.bytes a 4)), m)
  writeLong m a v := m.overwrite a (longBytes v)
  readPointer m a := (Address.ofValue (UInt32.ofNat (littleEndian (m.bytes a 3))), m)

end CellMap

/-! ## Which byte falls on an address -/

theorem onward_one_ofNat (a : Address) (n : Nat) :
    (a.onward 1).onward (UInt32.ofNat n) = a.onward (UInt32.ofNat (n + 1)) := by
  rw [show (1 : UInt32) = UInt32.ofNat 1 from rfl, Address.onward_onward_ofNat, Nat.add_comm]

/-- The last byte of a block counts where it falls, whatever was written there before it. -/
theorem lastAt_concat (a x : Address) (l : List UInt8) (v : UInt8) :
    lastAt a (l ++ [v]) x =
      if a.onward (UInt32.ofNat l.length) = x then some v else lastAt a l x := by
  induction l generalizing a with
  | nil => simp [lastAt]
  | cons u rest ih =>
      rw [List.cons_append, lastAt, ih, onward_one_ofNat, List.length_cons]
      by_cases h : a.onward (UInt32.ofNat (rest.length + 1)) = x
      · rw [if_pos h, if_pos h]
      · rw [if_neg h, if_neg h, lastAt]

/-- The byte that counts at an address is one that is written there with none after it. -/
theorem lastAt_eq_some_iff (a x : Address) (l : List UInt8) (v : UInt8) :
    lastAt a l x = some v ↔
      ∃ i, l[i]? = some v ∧ a.onward (UInt32.ofNat i) = x ∧
        ∀ j, i < j → j < l.length → a.onward (UInt32.ofNat j) ≠ x := by
  -- The induction takes bytes away at the end, since a later byte covers an earlier one. A block
  -- longer than the space covers addresses several times.
  induction l using List.reverseRecOn with
  | nil => simp [lastAt]
  | append_singleton l u ih =>
      rw [lastAt_concat, List.length_append, List.length_singleton]
      by_cases hu : a.onward (UInt32.ofNat l.length) = x
      -- The last byte falls on `x`, so nothing before it counts.
      · rw [if_pos hu]
        constructor
        · intro he
          refine ⟨l.length, by simpa using he, hu, ?_⟩
          intro j hj hlt
          omega
        · rintro ⟨i, hi, -, hno⟩
          have hle : i < l.length + 1 := by simpa using (List.getElem?_eq_some_iff.mp hi).1
          rcases Nat.lt_or_ge i l.length with hlt | hge
          · exact absurd hu (hno l.length hlt (by omega))
          · have he : i = l.length := by omega
            subst he
            simpa using hi
      -- The last byte falls elsewhere, so the condition on later bytes is the same with it and
      -- without.
      · rw [if_neg hu, ih]
        constructor
        · rintro ⟨i, hi, hx, hno⟩
          have hlt := (List.getElem?_eq_some_iff.mp hi).1
          refine ⟨i, by rw [List.getElem?_append_left hlt]; exact hi, hx, ?_⟩
          intro j hij hj
          rcases Nat.lt_or_ge j l.length with hjl | hjl
          · exact hno j hij hjl
          · have he : j = l.length := by omega
            subst he
            exact hu
        · rintro ⟨i, hi, hx, hno⟩
          have hle : i < l.length + 1 := by simpa using (List.getElem?_eq_some_iff.mp hi).1
          have hlt : i < l.length := by
            rcases Nat.lt_or_ge i l.length with h | h
            · exact h
            · have he : i = l.length := by omega
              subst he
              exact absurd hx hu
          rw [List.getElem?_append_left hlt] at hi
          exact ⟨i, hi, hx, fun j hij hj => hno j hij (by omega)⟩

/-! ## Laws of the accesses -/

namespace CellMap

@[simp] theorem bytes_zero (m : CellMap) (a : Address) : m.bytes a 0 = [] := rfl

/-- The bytes from an address on are the one there and those from the next address on. -/
theorem bytes_succ (m : CellMap) (a : Address) (n : Nat) :
    m.bytes a (n + 1) = (m a).value :: m.bytes (a.onward 1) n := by
  rw [bytes, List.range_succ_eq_map, List.map_cons, List.map_map, bytes]
  refine congr (congrArg List.cons ?_) ?_
  · rw [Address.onward_ofNat_zero]
  · refine List.map_congr_left fun i _ => ?_
    rw [onward_one_ofNat]
    rfl

theorem bytes_two (m : CellMap) (a : Address) :
    m.bytes a 2 = [(m a).value, (m (a.onward 1)).value] := by
  rw [bytes_succ, bytes_succ, bytes_zero]

theorem bytes_three (m : CellMap) (a : Address) :
    m.bytes a 3 = [(m a).value, (m (a.onward 1)).value, (m (a.onward 2)).value] := by
  rw [bytes_succ, bytes_two, Address.onward_onward]
  rfl

theorem bytes_four (m : CellMap) (a : Address) :
    m.bytes a 4 = [(m a).value, (m (a.onward 1)).value, (m (a.onward 2)).value,
      (m (a.onward 3)).value] := by
  rw [bytes_succ, bytes_three, Address.onward_onward, Address.onward_onward]
  rfl

/-- A reading can be broken off at any place and be taken up again there. -/
theorem bytes_add (m : CellMap) (a : Address) (k n : Nat) :
    m.bytes a (k + n) = m.bytes a k ++ m.bytes (a.onward (UInt32.ofNat k)) n := by
  rw [bytes, List.range_add, List.map_append, List.map_map]
  refine congrArg (m.bytes a k ++ ·) (List.map_congr_left fun i _ => ?_)
  rw [Address.onward_onward_ofNat]
  rfl

@[simp] theorem overwrite_nil (m : CellMap) (a : Address) : m.overwrite a [] = m := rfl

theorem overwrite_singleton (m : CellMap) (a x : Address) (v : UInt8) :
    m.overwrite a [v] x = if a = x then (m x).write v else m x := by
  by_cases h : a = x
  · simp [overwrite, lastAt, h]
  · simp [overwrite, lastAt, h]

/-- A writing is the writing of its first byte and then that of the others. -/
theorem overwrite_cons (m : CellMap) (a : Address) (v : UInt8) (rest : List UInt8) :
    m.overwrite a (v :: rest) = (m.overwrite a [v]).overwrite (a.onward 1) rest := by
  funext x
  show (match lastAt a (v :: rest) x with
    | some u => (m x).write u
    | none => m x) = (match lastAt (a.onward 1) rest x with
    | some u => (m.overwrite a [v] x).write u
    | none => m.overwrite a [v] x)
  rw [lastAt, overwrite_singleton]
  -- Where the rest of the block falls on `x` again, it replaces the first byte too.
  cases lastAt (a.onward 1) rest x with
  | some u =>
      by_cases h : a = x
      · simp only [if_pos h, Cell.write_write]
      · simp only [if_neg h]
  | none =>
      by_cases h : a = x
      · simp only [if_pos h]
      · simp only [if_neg h]

/-- Four bytes in a row, as a long number is written to flat memory. -/
theorem overwrite_four (m : CellMap) (a : Address) (v₀ v₁ v₂ v₃ : UInt8) :
    m.overwrite a [v₀, v₁, v₂, v₃] =
      (((m.overwrite a [v₀]).overwrite (a.onward 1) [v₁]).overwrite (a.onward 2) [v₂]).overwrite
        (a.onward 3) [v₃] := by
  rw [overwrite_cons, overwrite_cons, overwrite_cons, Address.onward_onward,
    Address.onward_onward]
  rfl

end CellMap

end W65C816
