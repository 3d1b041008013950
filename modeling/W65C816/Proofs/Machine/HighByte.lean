import W65C816.Machine.Console
import W65C816.Memory
import W65C816.Proofs.Machine.Recasting

/-!
# The hidden byte of the accumulator

While the accumulator is narrow, programs see its low byte, and its high byte waits. The high byte
is hidden in both senses: a step leaves it alone, and nothing that a step does depends on it.

* `Recasting.highByte` gives the accumulator another high byte, which is `Recasting.Unseen` as long
  as the accumulator is narrow.
* `Instruction.SetsHighByte` and `Instruction.UsesHighByte` are the exceptions: the few operations
  that take the whole accumulator for their destination or for their source.
* `narrow_accumulator_hides_high_byte` is the theorem, about one step on one machine and about two
  steps on machines that differ in the hidden byte.
-/

namespace W65C816

/-- Gives the accumulator another high byte. -/
def Recasting.highByte (high : UInt8) : Recasting :=
  ⟨fun a => joinBytes (lowByte a) high, id⟩

theorem Recasting.unseen_highByte (high : UInt8) : (highByte high).Unseen .byte := by
  constructor
  · intro v
    rw [← toUInt16_lowByte, ← toUInt16_lowByte]
    exact congrArg UInt8.toUInt16 (lowByte_joinBytes _ _)
  · intro _ low v
    simp [highByte]

namespace Registers

/-- The byte it already has makes no difference. -/
theorem recast_highByte_self (r : Registers) : r.recast (.highByte (highByte r.a)) = r := by
  show { r with a := joinBytes (lowByte r.a) (highByte r.a) } = r
  rw [joinBytes_lowByte_highByte]

/-- The high byte of the accumulator has nothing to do with the direct page. -/
theorem samePage_highByte (r : Registers) (high : UInt8) : r.SamePage (.highByte high) :=
  .inr rfl

end Registers

namespace Instruction

/-- Operations that give the high byte of a narrow accumulator a value. -/
def SetsHighByte (i : Instruction) : Prop :=
  i.operation ∈ [.xba, .tdc, .tsc, .mvn, .mvp]

/-- Operations that use the high byte of a narrow accumulator. Transfers to an index register use it
    when that register is wide. -/
def UsesHighByte (i : Instruction) (s : Status) : Prop :=
  i.operation ∈ [.xba, .tcd, .tcs, .mvn, .mvp] ∨
    (i.operation ∈ [.tax, .tay] ∧ s.indexWidth = .word)

variable {r : Registers} {high : UInt8}

/-- A narrow index register takes the low byte only. -/
theorem indexed_highByte (h : r.status.indexWidth ≠ .word) :
    r.indexed ((Recasting.highByte high).a r.a) = r.indexed r.a := by
  rw [Registers.indexed, Registers.indexed]
  cases hw : r.status.indexWidth with
  | byte => exact (Recasting.unseen_highByte high).operand r.a
  | word => exact absurd hw h

/-- What neither sets nor uses the hidden byte carries any change of it on. -/
theorem effect_carries_highByte (i : Instruction) (hw : r.status.accumulatorWidth = .byte)
    (hsets : ¬ i.SetsHighByte) (huses : ¬ i.UsesHighByte r.status) :
    i.effect.Carries (.highByte high) (.highByte high) r := by
  by_cases hi : i.operation ∈ Operation.wholesale
  · obtain ⟨operation, mode, baseCycles⟩ := i
    simp only [SetsHighByte, UsesHighByte, List.mem_cons, List.not_mem_nil, or_false, not_or,
      not_and] at hsets huses
    obtain ⟨hxba, htdc, htsc, hmvn, hmvp⟩ := hsets
    obtain ⟨⟨-, htcd, htcs, -, -⟩, hindex⟩ := huses
    simp only [Operation.wholesale, List.mem_cons, List.not_mem_nil, or_false] at hi
    -- Most operations that take the whole accumulator are excluded. The transfers to narrow index
    -- registers cut it, and the two on D leave it alone.
    rcases hi with rfl | rfl | rfl | rfl | rfl | rfl | rfl | rfl | rfl | rfl | rfl
    · show Effect.loadX _ (r.indexed ((Recasting.highByte high).a r.a)) _ = _
      rw [indexed_highByte (hindex (.inl rfl))]
      rfl
    · show Effect.loadY _ (r.indexed ((Recasting.highByte high).a r.a)) _ = _
      rw [indexed_highByte (hindex (.inr rfl))]
      rfl
    · exact absurd rfl htcd
    · exact absurd rfl htdc
    · exact absurd rfl htcs
    · exact absurd rfl htsc
    · exact absurd rfl hxba
    · exact absurd rfl hmvn
    · exact absurd rfl hmvp
    · exact ⟨rfl, rfl⟩
    · exact fun _ _ => rfl
  · have hunseen : (Recasting.highByte high).Unseen r.status.accumulatorWidth :=
      hw ▸ Recasting.unseen_highByte high
    exact i.effect_carries hunseen hi

/-- What sets the hidden byte without using it makes the same of any. -/
theorem effect_overwrites_highByte (i : Instruction) (hsets : i.SetsHighByte)
    (huses : ¬ i.UsesHighByte r.status) : i.effect.Carries (.highByte high) .none r := by
  obtain ⟨operation, mode, baseCycles⟩ := i
  simp only [SetsHighByte, List.mem_cons, List.not_mem_nil, or_false] at hsets
  rcases hsets with rfl | rfl | rfl | rfl | rfl
  · exact absurd (by simp [UsesHighByte]) huses
  · rfl
  · rfl
  · exact absurd (by simp [UsesHighByte]) huses
  · exact absurd (by simp [UsesHighByte]) huses

/-- What uses the hidden byte without setting it leaves the accumulator as it is. -/
theorem yields_same_accumulator (i : Instruction) {s : Status} (hsets : ¬ i.SetsHighByte)
    (huses : i.UsesHighByte s) {n : UInt16} {r r' : Registers} (h : i.effect.Yields n r r') :
    r'.a = r.a := by
  obtain ⟨operation, mode, baseCycles⟩ := i
  simp only [SetsHighByte, UsesHighByte, List.mem_cons, List.not_mem_nil, or_false, not_or]
    at hsets huses
  obtain ⟨hxba, -, -, hmvn, hmvp⟩ := hsets
  rcases huses with (rfl | rfl | rfl | rfl | rfl) | ⟨rfl | rfl, -⟩
  · exact absurd rfl hxba
  · obtain rfl := h
    rfl
  · obtain rfl := h
    rfl
  · exact absurd rfl hmvn
  · exact absurd rfl hmvp
  · obtain rfl := h
    rfl
  · obtain rfl := h
    rfl

end Instruction

/-! ## Steps -/

namespace Machine

variable {B : Type}

/-- Two machines that differ in the high byte of the accumulator at most. -/
def SameButHighByte (m m' : Machine B) : Prop :=
  ∃ high, m' = m.recast (.highByte high)

/-- With another high byte or without, the machine is the same but for this byte. -/
theorem sameButHighByte_recast {m : Machine B} {t : Recasting} {high : UInt8}
    (h : t = .none ∨ t = .highByte high) : m.SameButHighByte (m.recast t) := by
  obtain rfl | rfl := h
  · refine ⟨highByte m.core.a, ?_⟩
    show m = { m with core := { m.core with toRegisters := m.core.toRegisters.recast _ } }
    rw [Registers.recast_highByte_self]
  · exact ⟨high, rfl⟩

/-- A step that commutes with giving the accumulator the high byte it has keeps that byte. -/
theorem highByte_of_recast {m after : Machine B} [Bus B]
    (h : (m.recast (.highByte (highByte m.core.a))).step.machine =
      after.recast (.highByte (highByte m.core.a))) :
    highByte m.step.machine.core.a = highByte m.core.a := by
  have hself : m.recast (.highByte (highByte m.core.a)) = m := by
    show { m with core := { m.core with toRegisters := m.core.toRegisters.recast _ } } = m
    rw [Registers.recast_highByte_self]
  rw [hself] at h
  rw [h]
  exact highByte_joinBytes _ _

end Machine

/-- A step with a narrow accumulator leaves its high byte alone, and machines that differ in this
    byte go on in the same way and in the same time. The exceptions are the operations that set it
    in the first case, and those that use it in the second. -/
theorem narrow_accumulator_hides_high_byte {B : Type} [Bus B] {m : Machine B}
    (hw : m.core.status.accumulatorWidth = .byte) :
    ((m.core.decide m.irqLine = .instruction → ¬ m.fetched.SetsHighByte) →
        highByte m.step.machine.core.a = highByte m.core.a) ∧
      ((m.core.decide m.irqLine = .instruction → ¬ m.fetched.UsesHighByte m.core.status) →
        ∀ m' : Machine B, m.SameButHighByte m' →
          m.step.machine.SameButHighByte m'.step.machine ∧ m'.step.result = m.step.result) := by
  by_cases hstep : m.core.decide m.irqLine = .instruction
  · have hpage := m.core.toRegisters.samePage_highByte
    constructor
    -- That the byte is kept follows from the other half: the step carries a change to the byte that
    -- is there already.
    · intro hsets
      by_cases huses : m.fetched.UsesHighByte m.core.status
      · obtain ⟨r, hr, hregisters, -⟩ := Machine.step_instruction hstep
        rw [hregisters]
        exact congrArg highByte (m.fetched.yields_same_accumulator (hsets hstep) huses hr)
      · have hcarries : m.fetched.effect.Carries (.highByte (highByte m.core.a))
            (.highByte (highByte m.core.a)) m.core.toRegisters :=
          m.fetched.effect_carries_highByte hw (hsets hstep) huses
        exact Machine.highByte_of_recast (Machine.step_recast hstep (hpage _) hcarries).1
    · rintro huses m' ⟨high, rfl⟩
      obtain ⟨t, ht, hcarries⟩ : ∃ t, (t = .none ∨ t = .highByte high) ∧
          m.fetched.effect.Carries (.highByte high) t m.core.toRegisters := by
        by_cases hsets : m.fetched.SetsHighByte
        · exact ⟨_, .inl rfl, m.fetched.effect_overwrites_highByte hsets (huses hstep)⟩
        · exact ⟨_, .inr rfl, m.fetched.effect_carries_highByte hw hsets (huses hstep)⟩
      obtain ⟨hmachine, hresult⟩ := Machine.step_recast hstep (hpage _) hcarries
      rw [hmachine]
      exact ⟨Machine.sameButHighByte_recast ht, hresult⟩
  · constructor
    · intro _
      exact Machine.highByte_of_recast (Machine.step_recast_of_ne hstep).1
    · rintro - m' ⟨high, rfl⟩
      obtain ⟨hmachine, hresult⟩ := Machine.step_recast_of_ne (t := .highByte high) hstep
      rw [hmachine]
      exact ⟨⟨high, rfl⟩, hresult⟩

/-- A decimal addition with two different bytes hidden above the operands. -/
theorem decimal_addition_hides_high_byte :
    let memory := (Memory.blank.set ⟨0, 0⟩ 0x69).set ⟨0, 1⟩ 0x15
    let m := (Machine.start memory .standard).machine
    let m := (m.perform (.setStatus 0x08)).machine
    let m := (m.perform (.setA 0xAB27)).machine
    let m' := m.recast (.highByte 0xCD)
    m.core.status.accumulatorWidth = .byte ∧ m.core.decide m.irqLine = .instruction ∧
      ¬ m.fetched.SetsHighByte ∧ ¬ m.fetched.UsesHighByte m.core.status ∧
      highByte m.step.machine.core.a = 0xAB ∧
      m.step.machine.SameButHighByte m'.step.machine ∧ m'.step.result = m.step.result := by
  intro memory m₀ m₁ m m'
  have hw : m.core.status.accumulatorWidth = .byte := rfl
  have hstep : m.core.decide m.irqLine = .instruction := rfl
  have hadc : m.fetched.operation = .adc := by decide +kernel
  have hsets : ¬ m.fetched.SetsHighByte := by
    rw [Instruction.SetsHighByte, hadc]
    decide
  have huses : ¬ m.fetched.UsesHighByte m.core.status := by
    rw [Instruction.UsesHighByte, hadc]
    decide
  have hhigh : highByte m.core.a = 0xAB := by
    show highByte 0xAB27 = 0xAB
    decide
  obtain ⟨hkept, htwo⟩ := narrow_accumulator_hides_high_byte hw
  exact ⟨hw, hstep, hsets, huses, (hkept fun _ => hsets).trans hhigh,
    htwo (fun _ => huses) m' ⟨0xCD, rfl⟩⟩

end W65C816
