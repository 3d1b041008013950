import W65C816.Proofs.Machine.Inversion
import W65C816.Proofs.Pushes

/-!
# Entering an interrupt

What the hardware and the two breaks have in common, on any bus: the bytes that are pushed, and what
has become of the machine when the handler is reached.

* `Action.frame` is what an interrupt pushes, and `Action.enterInterrupt_run` all that it does.
* A break is an instruction whose effect is to enter an interrupt: `Instruction.effect_of_break`.
-/

namespace W65C816

namespace Instruction

/-- Checked over the table: both have a signature byte. -/
theorem mode_of_break :
    ∀ i ∈ table.toList, i.operation ∈ [.brk, .cop] → i.mode = .interrupt := by
  decide +kernel

theorem effect_of_break {i : Instruction} (h : i.operation ∈ [.brk, .cop]) :
    ∃ source, i.effect = .interrupt source := by
  simp only [List.mem_cons, List.not_mem_nil, or_false] at h
  rw [effect]
  rcases h with h | h
  · rw [h]
    exact ⟨_, rfl⟩
  · rw [h]
    exact ⟨_, rfl⟩

end Instruction

namespace Action

/-- The bytes that an interrupt pushes. -/
def frame (r : Registers) (source : Interrupt) (returnTo : UInt16) : List UInt8 :=
  (if r.status.emulation then [] else [r.pbr]) ++
    [highByte returnTo, lowByte returnTo, savedStatus r.status source]

theorem length_frame_le (r : Registers) (source : Interrupt) (returnTo : UInt16) :
    (frame r source returnTo).length ≤ 0x100 := by
  rw [frame]
  cases r.status.emulation with
  | true => exact Nat.le_add_left 3 0xFD
  | false => exact Nat.le_add_left 4 0xFC

/-- The cycles that it takes to enter an interrupt. -/
def entryCycles (s : Status) : UInt64 :=
  if s.emulation then 7 else 8

/-- Entering an interrupt pushes its frame, and then reads its vector. -/
theorem enterInterrupt_run {B : Type} [Bus B] (source : Interrupt) (returnTo : UInt16)
    (m : Machine B) :
    (enterInterrupt source returnTo).run m =
      let pushed := m.core.stack.pushAll m.bus (frame m.core.toRegisters source returnTo)
      let handler := Bus.readWordInBank pushed.2
        ⟨0, m.core.vectors.location source m.core.status.emulation⟩
      ((), ⟨(m.core.mapRegisters fun r =>
        ({ r with stack := pushed.1 } : Registers).interrupted handler.1).charge
          (entryCycles m.core.status), handler.2⟩) := by
  -- The mode decides whether the bank is pushed. With the flags written out, both sides compute.
  obtain ⟨⟨⟨a, x, y, d, dbr, pbr, pc, stack, flags⟩, cycles⟩, bus⟩ := m
  obtain ⟨carry, zero, irqDisable, decimal, breakFlag, accumulator, index, emulation⟩ := flags
  cases emulation with
  | true => rfl
  | false => rfl

/-- A break enters an interrupt, and that is all. -/
theorem interrupt_run {B : Type} [Bus B] {i : Instruction} {source : Interrupt}
    (hi : i.effect = .interrupt source) (m : Machine B) :
    (execute i).run m = (enterInterrupt source (m.core.pc + i.mode.size)).run m := by
  unfold execute
  rw [hi]
  rfl

end Action

end W65C816
