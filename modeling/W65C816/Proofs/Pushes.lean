import W65C816.Memory
import W65C816.Stack

/-!
# Bytes on the stack

Where the bytes lie that are pushed onto a stack in flat memory, and what pulls find of them. A
confined stack wraps on its page and a free one in bank 0, so the places below a pointer come round
again, and no more than `Stack.capacity` of them are different.

* `Stack.below` is the stack after a number of pushes and `Stack.place` the place of each byte.
* `Stack.pushAll` pushes bytes one after the other, and `Stack.get_pushAll_of_ne` says that all
  other places are left alone.
* `Stack.Holds` says that bytes are on the stack. They are after they have been pushed
  (`Stack.holds_pushAll`), and a pull finds the last of them (`Stack.pullByte_of_holds`).
-/

namespace W65C816

namespace Stack

/-! ## Places -/

/-- The pointer is where the mode allows it to be. -/
def Homed (s : Stack) : Prop :=
  home s.confined s.pointer = s.pointer

/-- How many bytes the stack can hold before it comes round. -/
def capacity (s : Stack) : Nat :=
  if s.confined then 0x100 else 0x10000

/-- A stack holds a page at least, also when it is confined to one. -/
theorem page_le_capacity (s : Stack) : 0x100 ≤ s.capacity := by
  rw [capacity]
  cases s.confined with
  | true => exact Nat.le_refl 0x100
  | false => decide

/-- The stack `n` bytes further down. -/
def below (s : Stack) (n : Nat) : Stack :=
  s.relocate (s.pointer - UInt16.ofNat n)

/-- The place of the byte that is pushed after `n` others. -/
def place (s : Stack) (n : Nat) : Address :=
  (s.below n).address

variable {s : Stack}

/-- Where a pointer comes to lie: on page 1 with its low byte if the stack is confined. -/
theorem toNat_home (confined : Bool) (p : UInt16) :
    (home confined p).toNat = if confined then 0x100 + p.toNat % 0x100 else p.toNat := by
  cases confined with
  | false => rfl
  | true =>
      have hlt := Nat.mod_lt p.toNat (show 0x100 > 0 by decide)
      simp only [home, if_true, UInt16.toNat_add, UInt16.toNat_mod, UInt16.reduceToNat]
      omega

/-- Going on from a pointer that has been brought home leads to the same place. -/
theorem home_home_add (confined : Bool) (p k : UInt16) :
    home confined (home confined p + k) = home confined (p + k) := by
  apply UInt16.toNat_inj.mp
  cases confined with
  | false => rfl
  | true =>
      simp only [toNat_home, UInt16.toNat_add, if_true]
      omega

theorem relocate_relocate_add (s : Stack) (p k : UInt16) :
    (s.relocate p).relocate ((s.relocate p).pointer + k) = s.relocate (p + k) :=
  congrArg (Stack.mk · s.confined) (home_home_add s.confined p k)

@[simp] theorem below_zero (hs : s.Homed) : s.below 0 = s := by
  have hpointer : s.pointer - UInt16.ofNat 0 = s.pointer := UInt16.sub_zero s.pointer
  rw [below, hpointer, relocate, make, hs]

theorem raised_below (s : Stack) (n : Nat) : (s.below (n + 1)).raised 1 = s.below n := by
  have hup : s.pointer - UInt16.ofNat (n + 1) + 1 = s.pointer - UInt16.ofNat n := by
    rw [UInt16.ofNat_add]
    grind
  rw [raised, below, relocate_relocate_add, hup, below]

theorem below_lowered (s : Stack) (n : Nat) : s.lowered.below n = s.below (n + 1) := by
  have hdown : s.pointer - 1 + -UInt16.ofNat n = s.pointer - UInt16.ofNat (n + 1) := by
    rw [UInt16.ofNat_add]
    grind
  rw [below, lowered, UInt16.sub_eq_add_neg (b := UInt16.ofNat n), relocate_relocate_add, hdown,
    below]

theorem homed_relocate (s : Stack) (p : UInt16) : (s.relocate p).Homed := by
  have hstay := home_home_add s.confined p 0
  rw [UInt16.add_zero, UInt16.add_zero] at hstay
  exact hstay

/-- No more bytes than the stack can hold lie in different places. -/
theorem place_inj {j k : Nat} (hj : j < s.capacity) (hk : k < s.capacity)
    (h : s.place j = s.place k) : j = k := by
  have hp := s.pointer.toNat_lt
  have hoffset := congrArg (fun a : Address => a.offset.toNat) h
  simp only [place, address, below, relocate, make, toNat_home, UInt16.toNat_sub,
    UInt16.toNat_ofNat'] at hoffset
  -- Both modes tell places apart modulo the capacity; only the base of the offsets differs.
  cases hc : s.confined with
  | true =>
      simp only [capacity, hc, if_true] at hj hk hoffset
      omega
  | false =>
      simp only [capacity, hc, Bool.false_eq_true, if_false] at hj hk hoffset
      omega

theorem place_zero (hs : s.Homed) : s.place 0 = s.address := by
  rw [place, below_zero hs]

/-- After a push, the places are those from the second one on. -/
theorem place_lowered (s : Stack) (n : Nat) : s.lowered.place n = s.place (n + 1) := by
  rw [place, below_lowered, place]

/-! ## Pushes -/

/-- Pushes bytes one after the other. -/
def pushAll {B : Type} [Bus B] (s : Stack) (b : B) : List UInt8 → Stack × B
  | [] => (s, b)
  | v :: rest => (s.pushByte b v).1.pushAll (s.pushByte b v).2 rest

variable {m : Memory} {l : List UInt8}

/-- Pushing bytes goes down by as many places. -/
theorem pushAll_stack {B : Type} [Bus B] (hs : s.Homed) (b : B) (l : List UInt8) :
    (s.pushAll b l).1 = s.below l.length := by
  induction l generalizing s b with
  | nil => exact (below_zero hs).symm
  | cons v rest ih => exact (ih (s.homed_relocate _) _).trans (s.below_lowered rest.length)

/-- What is pushed changes no other place. -/
theorem get_pushAll_of_ne (hs : s.Homed) (m : Memory) {a : Address}
    (ha : ∀ k, k < l.length → s.place k ≠ a) : (s.pushAll m l).2.get a = m.get a := by
  induction l generalizing s m with
  | nil => rfl
  | cons v rest ih =>
      have hrest : ∀ k, k < rest.length → s.lowered.place k ≠ a := by
        intro k hk
        rw [place_lowered]
        exact ha (k + 1) (Nat.succ_lt_succ hk)
      have hfirst : s.address ≠ a := by
        rw [← place_zero hs]
        exact ha 0 (Nat.succ_pos rest.length)
      have hset := m.get_set s.address a v
      rw [if_neg hfirst] at hset
      exact (ih (s.homed_relocate _) (m.set s.address v) hrest).trans hset

/-- Bytes of a stack are in memory below it, the first one on top. -/
def Holds (s : Stack) (m : Memory) (l : List UInt8) : Prop :=
  ∀ k v, l[k]? = some v → m.get (s.place k) = v

/-- What is pushed is where it has been pushed to. -/
theorem holds_pushAll (hs : s.Homed) (m : Memory) (hl : l.length ≤ s.capacity) :
    s.Holds (s.pushAll m l).2 l := by
  induction l generalizing s m with
  | nil => exact fun k v hv => nomatch hv
  | cons v rest ih =>
      intro k w hw
      cases k with
      | zero =>
          obtain rfl := Option.some.inj hw
          -- The bytes pushed later lie in other places, so this one is still where it was put.
          have hother : ∀ k, k < rest.length → s.lowered.place k ≠ s.place 0 := by
            intro k hk heq
            rw [place_lowered] at heq
            have hlast : k + 1 < s.capacity := Nat.lt_of_lt_of_le (Nat.succ_lt_succ hk) hl
            exact absurd (place_inj hlast (Nat.lt_of_le_of_lt (Nat.zero_le _) hlast) heq)
              (Nat.succ_ne_zero k)
          have hset := m.get_set s.address (s.place 0) v
          rw [if_pos (place_zero hs).symm] at hset
          exact (get_pushAll_of_ne (s.homed_relocate _) (m.set s.address v) hother).trans hset
      | succ k =>
          rw [← place_lowered]
          exact ih (s.homed_relocate _) (m.set s.address v) (Nat.le_of_succ_le hl) k w hw

/-! ## Pulls -/

theorem Holds.left {l' : List UInt8} (h : s.Holds m (l ++ l')) : s.Holds m l := by
  intro k w hw
  have hk := (List.getElem?_eq_some_iff.mp hw).1
  exact h k w (by rw [List.getElem?_append_left hk, hw])

/-- A pull finds the byte that was pushed last. -/
theorem pullByte_of_holds {v : UInt8} (h : s.Holds m (l ++ [v])) :
    (s.below (l.length + 1)).pullByte m = (v, s.below l.length, m) := by
  have hlast : m.get (s.place l.length) = v := h _ v (by simp)
  rw [pullByte, raised_below]
  exact congrArg (fun w => (w, s.below l.length, m)) hlast

/-- A pull of a word finds the two bytes that were pushed last. -/
theorem pullWord_of_holds {low high : UInt8} (h : s.Holds m (l ++ [high, low])) :
    (s.below (l.length + 2)).pullWord m = (joinBytes low high, s.below l.length, m) := by
  have hword : s.Holds m ((l ++ [high]) ++ [low]) := by
    rw [List.append_assoc]
    exact h
  have hlow := pullByte_of_holds hword
  have hhigh := pullByte_of_holds hword.left
  rw [List.length_append, List.length_singleton] at hlow
  rw [pullWord, hlow]
  simp only
  rw [hhigh]

end Stack

end W65C816
