import Mathlib.Algebra.Ring.Nat
import W65C816.Proofs.Machine.InterruptFrame
import W65C816.Proofs.Machine.Saving

/-!
# Last in, first out

Any number of bytes and words that are pushed one after the other, up to as many as the stack can
hold, and pulled again in the other order. At its capacity the stack wraps onto itself, and every
byte is still there.

* `Stack.pushOperands` and `Stack.pullOperands` are the operations of a program that mixes widths.
  Pushing operands is pushing their bytes (`Stack.pushOperands_eq`), so that what `Stack.Holds` says
  is all that the pulls need.
* `Stack.pullBytes` takes bytes alone. They are those that `Stack.peek` sees beforehand
  (`Stack.pullBytes_eq`), whatever is on the stack.
* `pushes_come_back` is what follows, with the stack-relative mode beside peeking.
-/

namespace W65C816

namespace Stack

section Operations

variable {B : Type} [Bus B]

/-- Pushes operands one after the other. -/
def pushOperands (s : Stack) (b : B) : List (Width × UInt16) → Stack × B
  | [] => (s, b)
  | (w, v) :: rest =>
      let (s, b) := s.push b w v
      pushOperands s b rest

/-- Pulls operands of the given widths one after the other. -/
def pullOperands (s : Stack) (b : B) : List Width → List UInt16 × Stack × B
  | [] => ([], s, b)
  | w :: rest =>
      let (v, s, b) := s.pull b w
      let (l, s, b) := pullOperands s b rest
      (v :: l, s, b)

/-- Pulls `n` bytes one after the other. -/
def pullBytes (s : Stack) (b : B) : Nat → List UInt8 × Stack × B
  | 0 => ([], s, b)
  | n + 1 =>
      let (v, s, b) := s.pullByte b
      let (l, s, b) := pullBytes s b n
      (v :: l, s, b)

/-- The bytes of operands, in the order in which they are pushed. -/
def bytesOf (l : List (Width × UInt16)) : List UInt8 :=
  l.flatMap fun p => Action.operandBytes p.2 p.1

/-- An operand takes as many bytes of the stack as it is wide. -/
theorem length_operandBytes (v : UInt16) (w : Width) :
    (Action.operandBytes v w).length = w.bytes := by
  cases w with
  | byte => rfl
  | word => rfl

/-- Operands of mixed widths take the sum of their widths. -/
theorem length_bytesOf (l : List (Width × UInt16)) :
    (bytesOf l).length = (l.map fun p => p.1.bytes).sum := by
  rw [bytesOf, List.length_flatMap]
  exact congrArg List.sum (List.map_congr_left fun p _ => length_operandBytes p.2 p.1)

theorem pushAll_append (s : Stack) (b : B) (l l' : List UInt8) :
    s.pushAll b (l ++ l') = (s.pushAll b l).1.pushAll (s.pushAll b l).2 l' := by
  induction l generalizing s b with
  | nil => rfl
  | cons v rest ih => exact ih _ _

theorem push_eq (s : Stack) (b : B) (w : Width) (v : UInt16) :
    s.push b w v = s.pushAll b (Action.operandBytes v w) := by
  cases w with
  | byte => rfl
  | word => rfl

/-- Pushing operands is pushing their bytes. -/
theorem pushOperands_eq (s : Stack) (b : B) (l : List (Width × UInt16)) :
    s.pushOperands b l = s.pushAll b (bytesOf l) := by
  induction l generalizing s b with
  | nil => rfl
  | cons p rest ih =>
      have hbytes : bytesOf (p :: rest) = Action.operandBytes p.2 p.1 ++ bytesOf rest := rfl
      rw [hbytes, pushAll_append, ← push_eq]
      exact ih _ _

end Operations

/-! ## Places of a stack -/

/-- A place where the stack can be: in bank 0, and on page 1 if it is confined. -/
def Reaches (s : Stack) (a : Address) : Prop :=
  a.bank = 0 ∧ (s.confined = true → 0x100 ≤ a.offset ∧ a.offset ≤ 0x1FF)

variable {s : Stack} {m : Memory} {l : List UInt8}

theorem reaches_place (s : Stack) (n : Nat) : s.Reaches (s.place n) := by
  refine ⟨rfl, fun hconfined => ?_⟩
  have hoffset := toNat_home s.confined (s.pointer - UInt16.ofNat n)
  have hlt := Nat.mod_lt (s.pointer - UInt16.ofNat n).toNat (show 0x100 > 0 by decide)
  rw [hconfined, if_pos rfl] at hoffset
  rw [UInt16.le_iff_toNat_le, UInt16.le_iff_toNat_le]
  simp only [place, address, below, relocate, make, hconfined, hoffset, UInt16.reduceToNat]
  omega

theorem homed_make (pointer : UInt16) (confined : Bool) : (make pointer confined).Homed :=
  homed_relocate ⟨pointer, confined⟩ pointer

/-! ## Pulling what has been pushed -/

/-- Operands that are on the stack are pulled in the order opposite to that of their pushes. The
    induction takes off the one that was pushed last. -/
theorem pullOperands_of_holds {operands : List (Width × UInt16)}
    (h : s.Holds m (l ++ bytesOf operands)) :
    (s.below (l ++ bytesOf operands).length).pullOperands m (operands.reverse.map Prod.fst) =
      (operands.reverse.map fun p => p.1.truncate p.2, s.below l.length, m) := by
  induction operands using List.reverseRecOn with
  | nil =>
      rw [bytesOf, List.flatMap_nil, List.append_nil]
      rfl
  | append_singleton rest last ih =>
      have hbytes : l ++ bytesOf (rest ++ [last]) =
          (l ++ bytesOf rest) ++ Action.operandBytes last.2 last.1 := by
        rw [bytesOf, List.flatMap_append, List.flatMap_singleton, List.append_assoc]
        rfl
      rw [hbytes] at h ⊢
      have hlast := pull_of_holds_append h
      have hrest := ih h.left
      rw [List.reverse_append, List.reverse_singleton, List.singleton_append, List.map_cons,
        List.map_cons, pullOperands, hlast]
      simp only
      rw [hrest]

/-! ## Looking ahead -/

/-- The pointer goes back by steps as it does at once. -/
theorem raised_raised (s : Stack) (j k : UInt16) : (s.raised j).raised k = s.raised (j + k) := by
  rw [raised, raised, relocate_relocate_add, UInt16.add_assoc, raised]

/-- Successive pulls take the bytes that can be seen at depth 1, 2 and so on. -/
theorem pullBytes_eq (s : Stack) (m : Memory) (n : Nat) :
    (s.pullBytes m n).1 = (List.range n).map fun k => s.peek m (UInt16.ofNat (k + 1)) := by
  induction n generalizing s with
  | zero => rfl
  | succ n ih =>
      have hnext : ∀ k, (s.raised 1).peek m (UInt16.ofNat (k + 1)) =
          s.peek m (UInt16.ofNat (k + 1 + 1)) := by
        intro k
        have hdepth : 1 + UInt16.ofNat (k + 1) = UInt16.ofNat (k + 1 + 1) := by
          rw [UInt16.ofNat_add (k + 1) 1, UInt16.add_comm]
          rfl
        rw [peek, raised_raised, hdepth, peek]
      rw [List.range_succ_eq_map, List.map_cons, List.map_map]
      refine congrArg (s.peek m 1 :: ·) ((ih (s.raised 1)).trans ?_)
      exact List.map_congr_left fun k _ => hnext k

/-- Looking at some depth shows what as many pulls would find there last. -/
theorem peek_eq_pulled (s : Stack) (m : Memory) {depth : UInt16} {n : Nat} (hone : 1 ≤ depth)
    (hn : depth.toNat ≤ n) : (s.pullBytes m n).1[depth.toNat - 1]? = some (s.peek m depth) := by
  have hpos : 1 ≤ depth.toNat := UInt16.le_iff_toNat_le.mp hone
  have hdepth : UInt16.ofNat (depth.toNat - 1 + 1) = depth := by
    rw [Nat.sub_add_cancel hpos, UInt16.ofNat_toNat]
  have hlt : depth.toNat - 1 < n := by omega
  rw [pullBytes_eq, List.getElem?_map, List.getElem?_range hlt, Option.map_some, hdepth]

end Stack

/-- The stack-relative mode finds what can be seen at the depth that follows the opcode. -/
theorem Machine.peek_eq_stackRelative {m : Machine Memory} (h : m.core.stack.confined = false) :
    m.bus.get (m.effectiveAddress .stackRelative).result =
      m.core.stack.peek m.bus (m.bus.get m.core.toRegisters.operandAddress).toUInt16 := by
  rw [Stack.peek, Stack.raised, Stack.relocate, h]
  rfl

/-- Operands that are pushed onto a stack that can hold their bytes.

    * The bytes go to places below the pointer, all of them where the stack may be, and no other
      place is changed.
    * Pulls with the same widths in the other order give the operands back and leave stack and
      memory as they were before and after the pushes.
    * On any stack, whatever is on it, a byte seen at a depth is the one that so many pulls take.
    * A free stack shows the same byte to the stack-relative mode. -/
theorem pushes_come_back (pointer : UInt16) (confined : Bool) (m : Memory)
    (operands : List (Width × UInt16))
    (hroom : (operands.map fun p => p.1.bytes).sum ≤ if confined then 0x100 else 0x10000) :
    let s := Stack.make pointer confined
    let bytes := Stack.bytesOf operands
    let places := (List.range bytes.length).map s.place
    let after := s.pushOperands m operands
    let record := (s.pushOperands (Recorded.fresh m) operands).2.accesses.reverse
    record = List.zipWith Access.write places bytes ∧
      (∀ a ∈ places, s.Reaches a) ∧ (∀ a ∉ places, after.2.get a = m.get a) ∧
      after.1.pullOperands after.2 (operands.reverse.map Prod.fst) =
        (operands.reverse.map fun p => p.1.truncate p.2, s, after.2) ∧
      (∀ (t : Stack) (b : Memory) (depth : UInt16) (n : Nat), 1 ≤ depth → depth.toNat ≤ n →
        (t.pullBytes b n).1[depth.toNat - 1]? = some (t.peek b depth)) ∧
      ∀ machine : Machine Memory, machine.core.stack.confined = false →
        machine.bus.get (machine.effectiveAddress .stackRelative).result =
          machine.core.stack.peek machine.bus
            (machine.bus.get machine.core.toRegisters.operandAddress).toUInt16 := by
  intro s bytes places after record
  have hs : s.Homed := Stack.homed_make pointer confined
  have hafter : after = s.pushAll m bytes := Stack.pushOperands_eq s m operands
  -- No byte is pushed over another, as the operands fit the stack.
  have hlength : bytes.length ≤ s.capacity := by
    rw [Stack.length_bytesOf]
    exact hroom
  refine ⟨?_, ?_, ?_, ?_, fun t b _ _ => t.peek_eq_pulled b, fun _ => Machine.peek_eq_stackRelative⟩
  · simp only [record]
    rw [Stack.pushOperands_eq, Stack.pushAll_recorded hs]
    exact (congrArg List.reverse (List.append_nil _)).trans (List.reverse_reverse _)
  · intro a ha
    obtain ⟨k, -, rfl⟩ := List.mem_map.mp ha
    exact s.reaches_place k
  · intro a ha
    rw [hafter]
    refine Stack.get_pushAll_of_ne hs m fun k hk heq => ha ?_
    exact List.mem_map.mpr ⟨k, List.mem_range.mpr hk, heq⟩
  -- The stack holds what has been pushed, and pulls take it apart from its end.
  · have hheld : s.Holds after.2 ([] ++ bytes) := by
      rw [hafter]
      exact Stack.holds_pushAll hs m hlength
    have hstack : after.1 = s.below ([] ++ bytes).length := by
      rw [hafter]
      exact Stack.pushAll_stack hs m bytes
    have hpulled := Stack.pullOperands_of_holds hheld
    rw [List.length_nil, Stack.below_zero hs] at hpulled
    rw [hstack]
    exact hpulled

/-- A page filled to its last byte, with a word across its end. -/
theorem full_page_comes_back :
    let operands := (Width.byte, 0x12) :: (Width.byte, 0x34) :: List.replicate 127 (.word, 0xBEEF)
    let s := Stack.make 0x0002 true
    let after := s.pushOperands Memory.blank operands
    (operands.map fun p => p.1.bytes).sum = s.capacity ∧
      s.place 2 = ⟨0, 0x100⟩ ∧ s.place 3 = ⟨0, 0x1FF⟩ ∧
      after.1.pullOperands after.2 (List.replicate 127 Width.word ++ [.byte, .byte]) =
        (List.replicate 127 0xBEEF ++ [0x34, 0x12], s, after.2) := by
  intro operands s after
  have hfull : (operands.map fun p => p.1.bytes).sum = 0x100 := by
    simp [operands, Width.bytes]
  have hroom : (operands.map fun p => p.1.bytes).sum ≤ if true then 0x100 else 0x10000 :=
    Nat.le_of_eq hfull
  obtain ⟨-, -, -, hpulled, -, -⟩ := pushes_come_back 0x0002 true Memory.blank operands hroom
  refine ⟨hfull, by decide, by decide, ?_⟩
  have hwidths : operands.reverse.map Prod.fst =
      List.replicate 127 Width.word ++ [.byte, .byte] := by
    simp [operands]
  have hvalues : (operands.reverse.map fun p => p.1.truncate p.2) =
      List.replicate 127 0xBEEF ++ [0x34, 0x12] := by
    simp [operands, Width.truncate]
  rw [hwidths, hvalues] at hpulled
  exact hpulled

end W65C816
