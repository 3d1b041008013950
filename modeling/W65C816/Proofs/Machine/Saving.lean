import W65C816.Proofs.Machine.Footprint

/-!
# Putting away and taking back

A program puts things away on the stack and takes them back later. The two operations of a pair are
far apart, in the program and in what they do: they have to agree on widths, on the order of bytes,
and on what a pushed status is to mean.

* `Saved` lists what can be put away, with the operations `Saved.save` and `Saved.restore` and the
  bytes that are on the stack in between.
* `Saved.Restored` says in what sense it is there again. A narrow accumulator has only its low byte
  on the stack, and the mode and the break flag are not in a pushed status.
* `Machine.step_saves` is the way onto the stack, and `Machine.step_restores` the way back. It asks
  for nothing but the bytes, so `saved_is_restored` allows anything to happen in between that leaves
  them alone.
-/

namespace W65C816

/-! ## What can be put away -/

/-- Something that a program can put away on the stack and take back. -/
inductive Saved where
  | accumulator
  | indexX
  | indexY
  | dataBank
  | directPage
  | status
  /-- The place where the program goes on after a call. -/
  | place (reach : Reach)
  deriving DecidableEq, Repr

namespace Saved

/-- The operation that puts it away. -/
def save : Saved → Operation
  | accumulator => .pha
  | indexX => .phx
  | indexY => .phy
  | dataBank => .phb
  | directPage => .phd
  | status => .php
  | place .near => .jsr
  | place .far => .jsl

/-- The operation that takes it back. -/
def restore : Saved → Operation
  | accumulator => .pla
  | indexX => .plx
  | indexY => .ply
  | dataBank => .plb
  | directPage => .pld
  | status => .plp
  | place .near => .rts
  | place .far => .rtl

/-- The bytes that are pushed for it, the first one first. A place is saved as the address of the
    last byte of the call. -/
def bytes (r : Registers) : Saved → List UInt8
  | accumulator => Action.operandBytes r.a r.status.accumulatorWidth
  | indexX => Action.operandBytes r.x r.status.indexWidth
  | indexY => Action.operandBytes r.y r.status.indexWidth
  | dataBank => [r.dbr]
  | directPage => Action.operandBytes r.d .word
  | status => [Effect.pushedStatus r]
  | place .near => Action.operandBytes (r.pc + 2) .word
  | place .far => r.pbr :: Action.operandBytes (r.pc + 3) .word

/-- Registers are taken back at the width at which they have been put away. -/
def SameWidth (s s' : Status) : Saved → Prop
  | accumulator => s'.accumulatorWidth = s.accumulatorWidth
  | indexX | indexY => s'.indexWidth = s.indexWidth
  | _ => True

/-- What has been put away from the registers `r` is there again in the registers `r'`. It has been
    taken back by a program that has found the registers `found` before. -/
def Restored (r found r' : Registers) : Saved → Prop
  | accumulator => r'.a =
      if r.status.accumulatorWidth = .byte then joinBytes (lowByte r.a) (highByte found.a) else r.a
  | indexX => r'.x = r.x
  | indexY => r'.y = r.y
  | dataBank => r'.dbr = r.dbr
  | directPage => r'.d = r.d
  | status => r'.status = { r.status with
      breakFlag := found.status.breakFlag
      narrowAccumulator :=
        if r.status.emulation then found.status.narrowAccumulator else r.status.narrowAccumulator
      narrowIndex :=
        if r.status.emulation then found.status.narrowIndex else r.status.narrowIndex }
  | place .near => r'.pc = r.pc + 3
  | place .far => r'.pbr = r.pbr ∧ r'.pc = r.pc + 4

theorem length_bytes_le (r : Registers) (what : Saved) : (what.bytes r).length ≤ 0x100 := by
  have hoperand : ∀ v w, (Action.operandBytes v w).length ≤ 2 := by
    intro v w
    cases w with
    | byte => exact Nat.le_succ 1
    | word => exact Nat.le_refl 2
  cases what with
  | accumulator => exact Nat.le_trans (hoperand _ _) (Nat.le_add_left 2 0xFE)
  | indexX | indexY => exact Nat.le_trans (hoperand _ _) (Nat.le_add_left 2 0xFE)
  | directPage => exact Nat.le_add_left 2 0xFE
  | dataBank | status => exact Nat.le_add_left 1 0xFF
  | place reach =>
      cases reach with
      | near => exact Nat.le_add_left 2 0xFE
      | far => exact Nat.le_add_left 3 0xFD

end Saved

/-! ## Flags -/

namespace Status

/-- Flags that a program has pushed come back, but for what only the mode or an interrupt sets. -/
theorem pull_pushedStatus {r : Registers} {found : Status}
    (hmode : found.emulation = r.status.emulation) :
    found.pull (Effect.pushedStatus r) = { r.status with
      breakFlag := found.breakFlag
      narrowAccumulator :=
        if r.status.emulation then found.narrowAccumulator else r.status.narrowAccumulator
      narrowIndex := if r.status.emulation then found.narrowIndex else r.status.narrowIndex } := by
  refine pull_of_has hmode ?_ ?_
  · intro weight hweight
    have hclear : has 0x30 weight = false := by
      simp only [List.mem_cons, List.not_mem_nil, or_false] at hweight
      rcases hweight with rfl | rfl | rfl | rfl | rfl | rfl <;> rfl
    rw [Effect.pushedStatus]
    split
    · rw [has_or, hclear, Bool.or_false]
    · rfl
  · intro hnative weight _
    rw [Effect.pushedStatus, hnative]
    rfl

end Status

/-! ## On the stack -/

namespace Stack

variable {s : Stack} {m m' : Memory} {l : List UInt8}

/-- Bytes stay on a stack as long as their places are left alone. -/
theorem Holds.of_unchanged (h : s.Holds m l)
    (hsame : ∀ k, k < l.length → m'.get (s.place k) = m.get (s.place k)) : s.Holds m' l := by
  intro k v hv
  rw [hsame k (List.getElem?_eq_some_iff.mp hv).1]
  exact h k v hv

/-- An operand is pulled as far as it has been pushed, and what lies under it stays. -/
theorem pull_of_holds_append {w : Width} {v : UInt16}
    (h : s.Holds m (l ++ Action.operandBytes v w)) :
    (s.below (l ++ Action.operandBytes v w).length).pull m w =
      (w.truncate v, s.below l.length, m) := by
  rw [List.length_append]
  cases w with
  | byte =>
      rw [← toUInt16_lowByte]
      exact congrArg (fun p : UInt8 × Stack × Memory => (p.1.toUInt16, p.2)) (pullByte_of_holds h)
  | word =>
      have hpull := pullWord_of_holds h
      rw [joinBytes_lowByte_highByte] at hpull
      exact hpull

/-- A pull finds an operand that has been pushed, at the width that it was pushed at. -/
theorem pull_of_holds {w : Width} {v : UInt16} (hs : s.Homed)
    (h : s.Holds m (Action.operandBytes v w)) :
    (s.below (Action.operandBytes v w).length).pull m w = (w.truncate v, s, m) := by
  have hpull := pull_of_holds_append (l := []) h
  rw [List.length_nil, below_zero hs] at hpull
  exact hpull

end Stack

namespace Action

variable {i : Instruction} {m : Machine Memory} {s : Stack} {l : List UInt8}

theorem operandBytes_byte (v : UInt8) : operandBytes v.toUInt16 .byte = [v] :=
  congrArg (fun b => [b]) v.toUInt8_toUInt16

/-- With the bytes of an operand on the stack, a pull absorbs it. -/
theorem execute_pull {size : OperandSize} {absorb : Width → UInt16 → Registers → Registers}
    {w : Width} {v : UInt16} (h : i.effect = .pull size absorb)
    (hw : size.width m.core.status = w) (hs : s.Homed) (hl : l = operandBytes v w)
    (hstack : m.core.stack = s.below l.length) (hheld : s.Holds m.bus l) :
    ((execute i).run m).2.core.toRegisters =
      (absorb w (w.truncate v) { m.core.toRegisters with stack := s }).skip
        (i.size m.core.status) := by
  subst hl
  have hrun : ((execute i).run m).2.core.toRegisters =
      let pulled := m.core.stack.pull m.bus (size.width m.core.status)
      (absorb (size.width m.core.status) pulled.1
        { m.core.toRegisters with stack := pulled.2.1 }).skip (i.size m.core.status) := by
    unfold execute
    rw [h]
    rfl
  rw [hrun, hw, hstack, Stack.pull_of_holds hs hheld]

/-- A return pulls an offset, and then a bank if it comes from afar. -/
theorem finishCall_run {B : Type} [Bus B] {reach : Reach} (h : i.effect = .finishCall reach)
    (m : Machine B) :
    ((execute i).run m).2.core.toRegisters =
      let offset := m.core.stack.pullWord m.bus
      let bank := offset.2.1.pullByte offset.2.2
      ({ m.core.toRegisters with
        stack := if reach = .far then bank.2.1 else offset.2.1 } : Registers).arrive reach
          ⟨bank.1, offset.1 + 1⟩ := by
  unfold execute
  rw [h]
  cases reach with
  | near => rfl
  | far => rfl

/-- With the place of a call on the stack, a return goes on right after that place. -/
theorem execute_finishCall {reach : Reach} (bank : UInt8) {last : UInt16}
    (h : i.effect = .finishCall reach) (hs : s.Homed)
    (hl : l = (if reach = .far then [bank] else []) ++ operandBytes last .word)
    (hstack : m.core.stack = s.below l.length) (hheld : s.Holds m.bus l) :
    ((execute i).run m).2.core.toRegisters =
      ({ m.core.toRegisters with stack := s } : Registers).arrive reach ⟨bank, last + 1⟩ := by
  subst hl
  have hoffset := Stack.pullWord_of_holds hheld
  rw [List.length_append, operandBytes, List.length_cons, List.length_singleton] at hstack
  rw [finishCall_run h, hstack, hoffset, joinBytes_lowByte_highByte]
  cases reach with
  | near =>
      simp only [reduceCtorEq, if_false, List.length_nil, Stack.below_zero hs]
      rfl
  | far =>
      have hbank := Stack.pullByte_of_holds (l := []) hheld.left
      rw [List.length_nil, Stack.below_zero hs] at hbank
      simp only [if_true, List.length_singleton]
      rw [hbank]

end Action

/-! ## There and back -/

namespace Instruction

/-- The effect of an instruction goes by its operation. -/
theorem effect_of_operation {i : Instruction} {operation : Operation}
    (h : i.operation = operation) :
    i.effect = (⟨operation, i.mode, i.baseCycles⟩ : Instruction).effect := by
  subst h
  rfl

/-- Checked over the table: the return address of a call lies three bytes on, less one. -/
theorem size_of_near_call : ∀ i ∈ table.toList, i.operation = .jsr → i.mode.size = 3 := by
  decide +kernel

theorem size_of_far_call : ∀ i ∈ table.toList, i.operation = .jsl → i.mode.size = 4 := by
  decide +kernel

end Instruction

namespace Effect

/-- A narrow accumulator is loaded below its high byte. -/
theorem a_loadAccumulator {w : Width} {r : Registers} (hw : r.status.accumulatorWidth = w)
    (v : UInt16) :
    (loadAccumulator w v r).a =
      if w = .byte then joinBytes (lowByte v) (highByte r.a) else v := by
  have hkept : (r.status.withResult w v).accumulatorWidth = w := hw
  rw [loadAccumulator, Registers.setAccumulator, hkept]
  cases w with
  | byte => rfl
  | word => rfl

theorem stack_loadAccumulator (w : Width) (v : UInt16) (r : Registers) :
    (loadAccumulator w v r).stack = r.stack := by
  rw [loadAccumulator, Registers.setAccumulator]
  split
  · rfl
  · rfl

end Effect

namespace Action

variable {i : Instruction} {m : Machine Memory} {what : Saved}

/-- What is saved is pushed, and nothing else happens to stack and memory. -/
theorem execute_saves (htable : i ∈ Instruction.table.toList) (hsave : i.operation = what.save)
    (m : Machine Memory) :
    Pushed m (what.bytes m.core.toRegisters) ((execute i).run m).2 := by
  have heffect := Instruction.effect_of_operation hsave
  cases what with
  | accumulator | indexX | indexY | directPage => exact execute_push heffect m
  | dataBank | status =>
      have hpush := execute_push heffect m
      rw [OperandSize.width, operandBytes_byte] at hpush
      exact hpush
  | place reach =>
      cases reach with
      | near =>
          have hcall := execute_call heffect m
          have hlast : m.core.pc + 3 - 1 = m.core.pc + 2 := by grind
          rw [Instruction.size_of_near_call i htable hsave, hlast] at hcall
          exact hcall
      | far =>
          have hcall := execute_call heffect m
          have hlast : m.core.pc + 4 - 1 = m.core.pc + 3 := by grind
          rw [Instruction.size_of_far_call i htable hsave, hlast] at hcall
          exact hcall

/-- With the saved bytes still on the stack, what was saved is restored from them, and the stack is
    where it was before. -/
theorem execute_restores {r : Registers} (hr : r.Sound)
    (hmode : m.core.status.emulation = r.status.emulation)
    (hwidth : what.SameWidth r.status m.core.status)
    (hstack : m.core.stack = r.stack.below (what.bytes r).length)
    (hheld : r.stack.Holds m.bus (what.bytes r)) (hrestore : i.operation = what.restore) :
    ((execute i).run m).2.core.toRegisters.stack = r.stack ∧
      what.Restored r m.core.toRegisters ((execute i).run m).2.core.toRegisters := by
  have heffect := Instruction.effect_of_operation hrestore
  have hhomed := hr.homed
  -- What comes back is in each case what was there, cut to its width.
  cases what with
  | accumulator =>
      rw [execute_pull heffect hwidth hhomed rfl hstack hheld]
      refine ⟨Effect.stack_loadAccumulator _ _ _, ?_⟩
      have hload := Effect.a_loadAccumulator (r := { m.core.toRegisters with stack := r.stack })
        hwidth (r.status.accumulatorWidth.truncate r.a)
      rw [lowByte_truncate] at hload
      refine hload.trans ?_
      cases r.status.accumulatorWidth with
      | byte => rfl
      | word => rfl
  | indexX =>
      rw [execute_pull heffect hwidth hhomed rfl hstack hheld]
      exact ⟨rfl, Width.truncate_of_fits hr.x⟩
  | indexY =>
      rw [execute_pull heffect hwidth hhomed rfl hstack hheld]
      exact ⟨rfl, Width.truncate_of_fits hr.y⟩
  | directPage =>
      rw [execute_pull heffect rfl hhomed rfl hstack hheld]
      exact ⟨rfl, rfl⟩
  | dataBank =>
      rw [execute_pull heffect rfl hhomed (operandBytes_byte _).symm hstack hheld]
      exact ⟨rfl, (lowByte_truncate .byte _).trans r.dbr.toUInt8_toUInt16⟩
  | status =>
      have hbyte : lowByte (Effect.pushedStatus r).toUInt16 = Effect.pushedStatus r :=
        UInt8.toUInt8_toUInt16 _
      rw [execute_pull heffect rfl hhomed (operandBytes_byte _).symm hstack hheld, lowByte_truncate,
        hbyte]
      exact ⟨rfl, Status.pull_pushedStatus hmode⟩
  | place reach =>
      -- The offset that was pushed is one less than where the program goes on.
      cases reach with
      | near =>
          rw [execute_finishCall r.pbr heffect hhomed rfl hstack hheld]
          exact ⟨rfl, UInt16.add_assoc r.pc 2 1⟩
      | far =>
          rw [execute_finishCall r.pbr heffect hhomed rfl hstack hheld]
          exact ⟨rfl, rfl, UInt16.add_assoc r.pc 3 1⟩

end Action

namespace Machine

variable {m : Machine Memory} {what : Saved}

/-- A step that puts something away pushes its bytes and nothing else. -/
theorem step_saves (h : m.core.decide m.irqLine = .instruction)
    (hsave : m.fetched.operation = what.save) :
    Action.Pushed m (what.bytes m.core.toRegisters) m.step.machine := by
  obtain ⟨hmachine, -⟩ := step_instruction_run h
  rw [hmachine]
  exact Action.execute_saves (i := m.fetched) (Instruction.ofOpcode_mem _) hsave
    { m with core := m.core.wake }

/-- A step that takes it back finds the stack as it was left, in the same mode and at the same
    width. -/
theorem step_restores {r : Registers} (hr : r.Sound)
    (hmode : m.core.status.emulation = r.status.emulation)
    (hwidth : what.SameWidth r.status m.core.status)
    (hstack : m.core.stack = r.stack.below (what.bytes r).length)
    (hheld : r.stack.Holds m.bus (what.bytes r)) (h : m.core.decide m.irqLine = .instruction)
    (hrestore : m.fetched.operation = what.restore) :
    m.step.machine.core.stack = r.stack ∧
      what.Restored r m.core.toRegisters m.step.machine.core.toRegisters := by
  have hregisters : m.step.machine.core.toRegisters =
      ((Action.execute m.fetched).run { m with core := m.core.wake }).2.core.toRegisters :=
    congrArg (fun after => after.core.toRegisters) (step_instruction_run h).1
  have hexecuted := Action.execute_restores (i := m.fetched) (m := { m with core := m.core.wake })
    hr hmode hwidth hstack hheld hrestore
  rw [← hregisters] at hexecuted
  exact hexecuted

end Machine

/-- Whatever is saved is undone by its restore, wherever the stack is, and whatever ran in between
    that has left the saved bytes alone. The two steps have to agree on the mode, on where the stack
    is, and for a register on its width. -/
theorem saved_is_restored {m m' : Machine Memory} (h : m.Reachable) (h' : m'.Reachable)
    (what : Saved) (hstep : m.core.decide m.irqLine = .instruction)
    (hsave : m.fetched.operation = what.save)
    (hmode : m'.core.status.emulation = m.core.status.emulation)
    (hpointer : m'.core.stack.pointer = m.step.machine.core.stack.pointer)
    (hkept : ∀ a ∈ m.core.pushPlaces (what.bytes m.core.toRegisters).length,
      m'.bus.get a = m.step.machine.bus.get a)
    (hwidth : what.SameWidth m.core.status m'.core.status)
    (hback : m'.core.decide m'.irqLine = .instruction)
    (hrestore : m'.fetched.operation = what.restore) :
    m'.step.machine.core.stack = m.core.stack ∧
      what.Restored m.core.toRegisters m'.core.toRegisters
        m'.step.machine.core.toRegisters := by
  have hsound := h.sound
  -- Right after the save, the bytes are on the stack.
  obtain ⟨hpushed, hbus⟩ := Machine.step_saves hstep hsave
  have hroom : (what.bytes m.core.toRegisters).length ≤ m.core.stack.capacity :=
    Nat.le_trans (what.length_bytes_le _) m.core.stack.page_le_capacity
  have hafter : m.core.stack.Holds m.step.machine.bus (what.bytes m.core.toRegisters) := by
    rw [hbus]
    exact Stack.holds_pushAll hsound.homed m.bus hroom
  rw [Stack.pushAll_stack hsound.homed] at hpushed
  -- They still are when they are to be taken back.
  have hheld : m.core.stack.Holds m'.bus (what.bytes m.core.toRegisters) :=
    hafter.of_unchanged fun k hk => hkept _ (hsound.place_mem hk)
  have hconfined : m'.core.stack.confined = m.core.stack.confined := by
    rw [h'.sound.confined, hsound.confined, hmode]
  have hstack : m'.core.stack = m.core.stack.below (what.bytes m.core.toRegisters).length := by
    rw [hpushed] at hpointer
    exact congrArg₂ Stack.mk hpointer hconfined
  exact Machine.step_restores hsound hmode hwidth hstack hheld hback hrestore

/-- A call whose return address wraps on page 1, and a return after the subroutine has loaded the
    accumulator. -/
theorem wrapped_call_and_return :
    let program := ((Memory.blank.load 0 [0x20, 0x00, 0x10]).load 0x1000 [0xA9, 0x55, 0x60])
    let m := (Machine.start program .standard).machine
    let m := (m.perform (.setStackPointer 0x0100)).machine
    let m' := ((m.perform .step).machine.perform .step).machine
    m.Reachable ∧ m'.Reachable ∧ m'.core.a = 0x55 ∧ m'.core.stack.pointer = 0x01FE ∧
      m'.step.machine.core.stack = m.core.stack ∧ m'.step.machine.core.pc = m.core.pc + 3 := by
  intro program m₀ m m'
  have hreachable : m.Reachable := (Machine.Reachable.start _ _).perform (.setStackPointer 0x0100)
  have hlater : m'.Reachable := (hreachable.perform .step).perform .step
  have hloaded : m'.core.a = 0x55 := by decide +kernel
  have hwrapped : m'.core.stack.pointer = 0x01FE := by decide +kernel
  obtain ⟨hstack, hplace⟩ := saved_is_restored hreachable hlater (.place .near) (by decide +kernel)
    (by decide +kernel) (by decide +kernel) (by decide +kernel) (by decide +kernel) trivial
    (by decide +kernel) (by decide +kernel)
  exact ⟨hreachable, hlater, hloaded, hwrapped, hstack, hplace⟩

end W65C816
