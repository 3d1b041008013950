import W65C816.Proofs.Machine.Entry

/-!
# What instructions cost

An instruction takes its base cycles and penalties, and a block move takes its base cycles for every
byte. Which penalties there are depends on the registers it starts with, and in two places on bytes
from the bus, which are left open here.

* `Effect.Costs` relates an instruction and the registers it starts with to the cycles that it can
  take, and `Action.execute_costs` says that it takes no other.
* `Effect.leeway` bounds the penalties of an effect. With the table this gives the bounds of
  `Instruction.costs_bounds`, which hold of every opcode.
* `Machine.step_spends` and `Machine.step_bounds` are what follows for a step.
-/

namespace W65C816

namespace Core

/-- The count of cycles is the given one. -/
def Spent (n : UInt64) (c : Core) : Prop :=
  c.cycles = n

theorem spent_relocate {n : UInt64} (c : Core) (v : UInt16) (h : c.Spent n) :
    Spent n { c with stack := c.stack.relocate v } :=
  h

end Core

/-! ## Costs -/

namespace Effect

/-- The cycles that an instruction with this effect can take, by the registers it starts with. It is
    left open whether an index or a branch crosses a page. -/
def Costs (i : Instruction) (r : Registers) (n : UInt64) : Effect → Prop
  | read size _ => ∃ crossed, n = i.baseCycles.toUInt64 +
      (size.extraCycles r.status + r.directPenalty i.mode.usesDirectPage +
        Action.penaltyIf crossed)
  | write size _ => n = i.baseCycles.toUInt64 +
      (size.extraCycles r.status + r.directPenalty i.mode.usesDirectPage)
  | alter _ => n = i.baseCycles.toUInt64 + if i.mode = .accumulator then 0 else
      2 * OperandSize.accumulator.extraCycles r.status + r.directPenalty i.mode.usesDirectPage
  | push size _ | pull size _ => n = i.baseCycles.toUInt64 + size.extraCycles r.status
  | pushOperand _ => n = i.baseCycles.toUInt64 + r.directPenalty i.mode.usesDirectPage
  | branch taken =>
      (taken r.status = true ∧ ∃ apart, n = i.baseCycles.toUInt64 + 1 +
        Action.penaltyIf (r.status.emulation && apart)) ∨
      (taken r.status = false ∧ n = i.baseCycles.toUInt64)
  | finishInterrupt => n = i.baseCycles.toUInt64 + if r.status.emulation then 0 else 1
  | interrupt _ => n = Action.entryCycles r.status
  | moveBlock _ => n = UInt64.ofNat (r.a.toNat + 1) * i.baseCycles.toUInt64
  | adjust _ | mask _ | branchLong | jump _ | call _ | finishCall _ | wait | stop =>
      n = i.baseCycles.toUInt64

/-- The most cycles that the penalties of an effect can add up to in a mode. -/
def leeway (mode : Mode) : Effect → Nat
  | read _ _ => 2 + mode.usesDirectPage.toNat
  | write _ _ => 1 + mode.usesDirectPage.toNat
  | alter _ => if mode = .accumulator then 0 else 2 + mode.usesDirectPage.toNat
  | push _ _ | pull _ _ | finishInterrupt => 1
  | pushOperand _ => mode.usesDirectPage.toNat
  | branch _ => 2
  | _ => 0

end Effect

namespace Action

variable {B : Type} {n : UInt64}

/-! ## Parts of instructions -/

theorem changeRegisters_spent (f : Registers → Registers) :
    Keeps (Core.Spent n) (changeRegisters f : Action B Unit) :=
  changeRegisters_ensures fun _ h => h

/-- No other action changes the count. -/
theorem charge_spent (k : UInt64) :
    Ensures (Core.Spent n) (charge k : Action B Unit) fun _ => Core.Spent (n + k) := by
  refine changeCore_ensures ?_
  intro c h
  exact congrArg (· + k) h

/-- An instruction ends with its base cycles and its penalties. -/
theorem retire_spent (i : Instruction) (r : Registers) (penalty : UInt64) :
    Ensures (Core.Spent n) (retire i r penalty : Action B Unit)
      fun _ => Core.Spent (n + (i.baseCycles.toUInt64 + penalty)) :=
  (charge_spent _).bind fun _ => changeRegisters_spent _

theorem arrive_spent (reach : Reach) (target : Address) :
    Keeps (Core.Spent n) (arrive reach target : Action B Unit) := by
  cases reach with
  | near => exact changeRegisters_spent _
  | far => exact changeRegisters_spent _

/-- The registers that an instruction starts with, and the count. -/
theorem registers_spent {r : Registers} :
    Ensures (fun c => c.toRegisters = r ∧ c.Spent n) (registers : Action B Registers)
      fun now c => now = r ∧ c.toRegisters = r ∧ c.Spent n := by
  refine registers_ensures.imp ?_
  rintro now c ⟨hnow, hr, h⟩
  exact ⟨hnow.symm.trans hr, hr, h⟩

variable [Bus B]

/-- The cycles of altering an operand are all in its base cycles and penalties. -/
theorem alterOperand_spent (mode : Mode) (w : Width)
    (change : UInt16 → Registers → UInt16 × Status) :
    Keeps (Core.Spent n) (alterOperand mode w change : Action B Unit) := by
  refine .ite (changeRegisters_spent _) ?_
  refine (locate_keeps mode).bind fun place => ?_
  refine (readData_ensures place.address mode w).bind fun v => .assuming fun _ => ?_
  refine registers_keeps.bind fun r => ?_
  exact (changeRegisters_spent _).bind fun _ => writeData_keeps place.address mode w _

/-- Every byte of a block costs the same. -/
theorem moveBytes_spent (direction : Direction) (source destination : UInt8) (cycles : UInt64)
    (k : Nat) :
    Ensures (Core.Spent n) (moveBytes direction source destination cycles k : Action B Unit)
      fun _ => Core.Spent (n + UInt64.ofNat k * cycles) := by
  -- By induction on the bytes that remain. The count may be any, so it is generalised.
  induction k generalizing n with
  | zero =>
      refine .pure ?_
      intro c h
      have hzero : n + UInt64.ofNat 0 * cycles = n := by simp
      rw [hzero]
      exact h
  | succ k ih =>
      have hbyte : Ensures (Core.Spent n)
          (moveByte direction source destination cycles : Action B Unit)
          fun _ => Core.Spent (n + cycles) := by
        refine registers_keeps.bind fun r => ?_
        refine (read_keeps _).bind fun v => ?_
        refine (write_keeps _ v).bind fun _ => ?_
        exact (changeRegisters_spent _).bind fun _ => charge_spent cycles
      have hsum : n + UInt64.ofNat (k + 1) * cycles = n + cycles + UInt64.ofNat k * cycles := by
        rw [UInt64.ofNat_add]
        grind
      rw [hsum]
      exact hbyte.bind fun _ => ih

/-- Entering an interrupt takes a cycle more in native mode, where the program bank is pushed. -/
theorem enterInterrupt_spent (source : Interrupt) (returnTo : UInt16) (m : Machine B) :
    ((enterInterrupt source returnTo).run m).2.core.cycles =
      m.core.cycles + entryCycles m.core.status := by
  rw [enterInterrupt_run]
  rfl

/-! ## Instructions -/

/-- Every instruction takes what its effect can cost. -/
theorem execute_costs (i : Instruction) (r : Registers) :
    Ensures (fun c => c.toRegisters = r ∧ c.Spent n) (execute i : Action B Unit)
      fun _ c => ∃ k, i.effect.Costs i r k ∧ c.Spent (n + k) := by
  unfold execute
  refine registers_spent.bind fun now => .assuming ?_
  rintro rfl
  -- The count is all that has to be carried on, unless an effect looks at the registers again.
  have spending : ∀ {α : Type} {p : Action B α} {Q : α → Core → Prop},
      Ensures (Core.Spent n) p Q → Ensures (fun c => c.toRegisters = now ∧ c.Spent n) p Q :=
    fun h => ⟨fun hP => h.run hP.2⟩
  generalize i.effect = e
  cases e with
  | read size absorb =>
      refine spending ?_
      refine (readOperand_ensures i.mode _).bind fun p => .assuming fun _ => ?_
      refine (changeRegisters_spent _).bind fun _ => ?_
      exact (retire_spent i now _).imp fun _ _ h => ⟨_, ⟨p.2, rfl⟩, h⟩
  | write size value =>
      refine spending ?_
      refine (locate_keeps i.mode).bind fun place => ?_
      refine (writeData_keeps _ _ _ _).bind fun _ => ?_
      exact (retire_spent i now _).imp fun _ _ h => ⟨_, rfl, h⟩
  | alter change =>
      refine spending ?_
      refine (alterOperand_spent i.mode _ _).bind fun _ => ?_
      simp only [Effect.Costs]
      by_cases hmode : i.mode = .accumulator
      · rw [if_pos hmode, if_pos hmode]
        exact (retire_spent i now _).imp fun _ _ h => ⟨_, rfl, h⟩
      · rw [if_neg hmode, if_neg hmode]
        exact (retire_spent i now _).imp fun _ _ h => ⟨_, rfl, h⟩
  | adjust change =>
      refine spending ?_
      refine (changeRegisters_spent _).bind fun _ => ?_
      exact (retire_spent i now 0).imp fun _ _ h => ⟨_, UInt64.add_zero _, h⟩
  | mask change =>
      refine spending ?_
      refine operandByte_keeps.bind fun bits => ?_
      refine (changeRegisters_spent _).bind fun _ => ?_
      exact (retire_spent i now 0).imp fun _ _ h => ⟨_, UInt64.add_zero _, h⟩
  | push size value =>
      refine spending ?_
      refine (push_keeps Core.spent_relocate _ _).bind fun _ => ?_
      exact (retire_spent i now _).imp fun _ _ h => ⟨_, rfl, h⟩
  | pull size absorb =>
      refine spending ?_
      refine (pull_ensures Core.spent_relocate _).bind fun v => .assuming fun _ => ?_
      refine (changeRegisters_spent _).bind fun _ => ?_
      exact (retire_spent i now _).imp fun _ _ h => ⟨_, rfl, h⟩
  | pushOperand value =>
      refine spending ?_
      refine (locate_keeps i.mode).bind fun place => ?_
      refine (readWordInBank_keeps _).bind fun v => ?_
      refine (pushWord_keeps Core.spent_relocate _).bind fun _ => ?_
      exact (retire_spent i now _).imp fun _ _ h => ⟨_, rfl, h⟩
  | branch taken =>
      refine registers_spent.bind fun r => .assuming ?_
      rintro rfl
      refine spending ?_
      refine operandByte_keeps.bind fun distance => ?_
      cases htaken : taken r.status with
      | true =>
          refine (charge_spent _).bind fun _ => ?_
          exact (changeRegisters_spent _).imp fun _ _ h => ⟨_, .inl ⟨htaken, _, rfl⟩, h⟩
      | false =>
          refine (charge_spent _).bind fun _ => ?_
          exact (changeRegisters_spent _).imp fun _ _ h => ⟨_, .inr ⟨htaken, rfl⟩, h⟩
  | branchLong =>
      refine spending ?_
      refine operandWord_keeps.bind fun distance => ?_
      refine (changeRegisters_spent _).bind fun _ => ?_
      exact (charge_spent _).imp fun _ _ h => ⟨_, rfl, h⟩
  | jump reach =>
      refine spending ?_
      refine (locate_keeps i.mode).bind fun place => ?_
      refine (arrive_spent reach _).bind fun _ => ?_
      exact (charge_spent _).imp fun _ _ h => ⟨_, rfl, h⟩
  | call reach =>
      refine spending ?_
      refine (locate_keeps i.mode).bind fun place => ?_
      refine .optional (pushByte_keeps Core.spent_relocate _) ?_
      refine (pushWord_keeps Core.spent_relocate _).bind fun _ => ?_
      refine (arrive_spent reach _).bind fun _ => ?_
      exact (charge_spent _).imp fun _ _ h => ⟨_, rfl, h⟩
  | finishCall reach =>
      refine spending ?_
      refine (pullWord_keeps Core.spent_relocate).bind fun offset => ?_
      cases reach with
      | near =>
          refine Ensures.bind (Q := fun _ => Core.Spent n) (.pure fun _ h => h) fun bank => ?_
          refine (arrive_spent .near _).bind fun _ => ?_
          exact (charge_spent _).imp fun _ _ h => ⟨_, rfl, h⟩
      | far =>
          refine (pullByte_keeps Core.spent_relocate).bind fun bank => ?_
          refine (arrive_spent .far _).bind fun _ => ?_
          exact (charge_spent _).imp fun _ _ h => ⟨_, rfl, h⟩
  | finishInterrupt =>
      refine spending ?_
      refine (pullByte_keeps Core.spent_relocate).bind fun bits => ?_
      refine (changeRegisters_spent _).bind fun _ => ?_
      refine (pullWord_keeps Core.spent_relocate).bind fun offset => ?_
      simp only [Effect.Costs]
      by_cases he : now.status.emulation = true
      · rw [if_pos he, if_pos he]
        refine (changeRegisters_spent _).bind fun _ => ?_
        exact (charge_spent _).imp fun _ _ h => ⟨_, (UInt64.add_zero _).symm, h⟩
      · rw [if_neg he, if_neg he]
        refine (pullByte_keeps Core.spent_relocate).bind fun bank => ?_
        refine (arrive_spent .far _).bind fun _ => ?_
        exact (charge_spent _).imp fun _ _ h => ⟨_, rfl, h⟩
  | interrupt source =>
      refine ⟨?_⟩
      rintro m ⟨rfl, rfl⟩
      exact ⟨_, rfl, enterInterrupt_spent source _ m⟩
  | moveBlock direction =>
      refine registers_spent.bind fun r => .assuming ?_
      rintro rfl
      refine spending ?_
      refine (read_keeps _).bind fun destination => ?_
      refine (read_keeps _).bind fun source => ?_
      refine (changeRegisters_spent _).bind fun _ => ?_
      refine (moveBytes_spent direction source destination _ _).bind fun _ => ?_
      exact (changeRegisters_spent _).imp fun _ _ h => ⟨_, rfl, h⟩
  | wait =>
      refine spending ?_
      refine Ensures.bind (Q := fun _ => Core.Spent n) (changeCore_ensures fun _ h => h) ?_
      exact fun _ => (retire_spent i now 0).imp fun _ _ h => ⟨_, UInt64.add_zero _, h⟩
  | stop =>
      refine spending ?_
      refine Ensures.bind (Q := fun _ => Core.Spent n) (changeCore_ensures fun _ h => h) ?_
      exact fun _ => (retire_spent i now 0).imp fun _ _ h => ⟨_, UInt64.add_zero _, h⟩

end Action

/-! ## Bounds -/

section Penalties

theorem OperandSize.extraCycles_le (size : OperandSize) (s : Status) :
    (size.extraCycles s).toNat ≤ 1 := by
  cases size with
  | byte | word => exact Nat.zero_le 1
  | accumulator =>
      cases hw : s.accumulatorWidth with
      | byte => simp [extraCycles, width, hw]
      | word => simp [extraCycles, width, hw]
  | index =>
      cases hw : s.indexWidth with
      | byte => simp [extraCycles, width, hw]
      | word => simp [extraCycles, width, hw]

/-- A mode that does not use the direct page does not pay for it. -/
theorem Registers.directPenalty_le (r : Registers) (direct : Bool) :
    (r.directPenalty direct).toNat ≤ direct.toNat := by
  rw [directPenalty]
  cases direct with
  | false => simp
  | true =>
      split
      · exact Nat.le_refl 1
      · exact Nat.zero_le 1

theorem Action.penaltyIf_le (reason : Bool) : (penaltyIf reason).toNat ≤ 1 := by
  cases reason with
  | false => exact Nat.zero_le 1
  | true => exact Nat.le_refl 1

/-- An interrupt takes seven or eight cycles, within the bounds of instructions. -/
theorem Action.entryCycles_bounds (s : Status) :
    2 ≤ (entryCycles s).toNat ∧ (entryCycles s).toNat ≤ 9 := by
  rw [entryCycles]
  cases s.emulation with
  | true => exact ⟨Nat.le_add_left 2 5, Nat.le_add_left 7 2⟩
  | false => exact ⟨Nat.le_add_left 2 6, Nat.le_add_left 8 1⟩

end Penalties

/-- All but block moves and interrupts cost their base cycles and penalties within the leeway. -/
theorem Effect.Costs.penalty {e : Effect} {i : Instruction} {r : Registers} {n : UInt64}
    (h : e.Costs i r n) (hblock : ∀ direction, e ≠ .moveBlock direction)
    (hinterrupt : ∀ source, e ≠ .interrupt source) :
    ∃ penalty : UInt64, n = i.baseCycles.toUInt64 + penalty ∧
      penalty.toNat ≤ e.leeway i.mode := by
  have hdirect := r.directPenalty_le i.mode.usesDirectPage
  have hdirect_le := i.mode.usesDirectPage.toNat_le
  -- What an effect can cost names its penalties, each of which is at most one cycle.
  cases e with
  | read size absorb =>
      obtain ⟨crossed, rfl⟩ := h
      have hsize := size.extraCycles_le r.status
      have hcrossed := Action.penaltyIf_le crossed
      refine ⟨_, rfl, ?_⟩
      simp only [leeway, UInt64.toNat_add]
      omega
  | write size value =>
      obtain rfl := h
      have hsize := size.extraCycles_le r.status
      refine ⟨_, rfl, ?_⟩
      simp only [leeway, UInt64.toNat_add]
      omega
  | alter change =>
      obtain rfl := h
      have hsize := OperandSize.accumulator.extraCycles_le r.status
      refine ⟨_, rfl, ?_⟩
      rw [leeway]
      split
      · exact Nat.le_refl 0
      · simp only [UInt64.toNat_add, UInt64.toNat_mul, UInt64.reduceToNat]
        omega
  | push size value | pull size absorb =>
      obtain rfl := h
      exact ⟨_, rfl, size.extraCycles_le r.status⟩
  | pushOperand value =>
      obtain rfl := h
      exact ⟨_, rfl, hdirect⟩
  | branch taken =>
      obtain ⟨-, apart, rfl⟩ | ⟨-, rfl⟩ := h
      · have happart := Action.penaltyIf_le (r.status.emulation && apart)
        refine ⟨_, UInt64.add_assoc _ _ _, ?_⟩
        simp only [leeway, UInt64.toNat_add, UInt64.reduceToNat]
        omega
      · exact ⟨0, (UInt64.add_zero _).symm, Nat.zero_le 2⟩
  | finishInterrupt =>
      obtain rfl := h
      refine ⟨_, rfl, ?_⟩
      cases r.status.emulation with
      | true => exact Nat.zero_le 1
      | false => exact Nat.le_refl 1
  | interrupt source => exact absurd rfl (hinterrupt source)
  | moveBlock direction => exact absurd rfl (hblock direction)
  | adjust change | mask change | branchLong | jump reach | call reach | finishCall reach | wait
  | stop =>
      obtain rfl := h
      exact ⟨0, (UInt64.add_zero _).symm, Nat.le_refl 0⟩

namespace Instruction

/-- The operations that move blocks. -/
def movesBlock (i : Instruction) : Prop :=
  i.operation = .mvn ∨ i.operation = .mvp

instance (i : Instruction) : Decidable i.movesBlock :=
  inferInstanceAs (Decidable (_ ∨ _))

/-- The operations that move blocks are those with that effect. -/
theorem movesBlock_iff (i : Instruction) :
    i.movesBlock ↔ ∃ direction, i.effect = .moveBlock direction := by
  obtain ⟨operation, mode, baseCycles⟩ := i
  cases operation with
  | mvn => exact ⟨fun _ => ⟨.up, rfl⟩, fun _ => .inl rfl⟩
  | mvp => exact ⟨fun _ => ⟨.down, rfl⟩, fun _ => .inr rfl⟩
  | _ => exact ⟨fun h => h.elim nofun nofun, fun ⟨_, h⟩ => nomatch h⟩

/-- Checked over the table: with all its penalties, no instruction takes more than nine cycles. -/
theorem baseCycles_bounds :
    ∀ i ∈ table.toList, 2 ≤ i.baseCycles.toNat ∧
      i.baseCycles.toNat + i.effect.leeway i.mode ≤ 9 := by
  decide +kernel

theorem baseCycles_of_movesBlock : ∀ i ∈ table.toList, i.movesBlock → i.baseCycles = 7 := by
  decide +kernel

/-- A block move costs seven cycles a byte, and every other instruction between two and nine. -/
theorem costs_bounds {i : Instruction} (hi : i ∈ table.toList) {r : Registers} {n : UInt64}
    (h : i.effect.Costs i r n) :
    if i.movesBlock then n.toNat = 7 * (r.a.toNat + 1) else 2 ≤ n.toNat ∧ n.toNat ≤ 9 := by
  by_cases hblock : i.movesBlock
  · rw [if_pos hblock]
    obtain ⟨direction, he⟩ := i.movesBlock_iff.mp hblock
    rw [he] at h
    have hn : n = UInt64.ofNat (r.a.toNat + 1) * i.baseCycles.toUInt64 := h
    have ha := r.a.toNat_lt
    have hbase : (7 : UInt8).toUInt64.toNat = 7 := rfl
    rw [hn, baseCycles_of_movesBlock i hi hblock, UInt64.toNat_mul, UInt64.toNat_ofNat', hbase]
    omega
  -- Interrupts have bounds of their own. All others have those of the table.
  · rw [if_neg hblock]
    obtain ⟨hbase, hmost⟩ := baseCycles_bounds i hi
    by_cases hinterrupt : ∃ source, i.effect = .interrupt source
    · obtain ⟨source, he⟩ := hinterrupt
      rw [he] at h
      have hn : n = Action.entryCycles r.status := h
      rw [hn]
      exact Action.entryCycles_bounds r.status
    · obtain ⟨penalty, rfl, hpenalty⟩ := h.penalty
        (fun direction he => hblock (i.movesBlock_iff.mpr ⟨direction, he⟩))
        (fun source he => hinterrupt ⟨source, he⟩)
      rw [UInt64.toNat_add, UInt8.toNat_toUInt64]
      omega

end Instruction

namespace Machine

variable {B : Type} [Bus B] {m : Machine B}

/-! ## Steps -/

theorem cycles_instruction (h : m.core.decide m.irqLine = .instruction) :
    ∃ n, m.fetched.effect.Costs m.fetched m.core.toRegisters n ∧
      m.step.machine.core.cycles = m.core.cycles + n := by
  obtain ⟨n, hn, hcycles⟩ :=
    (Action.execute_costs (n := m.core.cycles) m.fetched m.core.toRegisters).run
      (m := ⟨m.core.wake, (Bus.read m.bus m.core.programAddress).2⟩) ⟨rfl, rfl⟩
  refine ⟨n, hn, ?_⟩
  rw [step_eq_advance h, machine_account, machine_advance]
  exact hcycles

theorem cycles_interrupt {source : Interrupt} (h : m.core.decide m.irqLine = .interrupt source) :
    m.step.machine.core.cycles = m.core.cycles + Action.entryCycles m.core.status := by
  have henter := Action.enterInterrupt_spent source (m.core.wake.acknowledge source).pc
    { m with core := m.core.wake.acknowledge source }
  have hbefore : (m.core.wake.acknowledge source).cycles = m.core.cycles ∧
      (m.core.wake.acknowledge source).status = m.core.status := by
    cases source with
    | abort | nmi | irq | brk | cop => exact ⟨rfl, rfl⟩
  simp only [hbefore] at henter
  rw [step_eq_serve h, machine_account]
  exact henter

/-- The result of a step is what it adds to the count. -/
theorem step_spends (m : Machine B) :
    m.step.machine.core.cycles = m.core.cycles + m.step.result := by
  have hsub : ∀ start n : UInt64, start + (n - start) = n := by
    intro start n
    grind
  cases h : m.core.decide m.irqLine with
  | idle =>
      rw [step_idle h]
      exact (UInt64.add_zero _).symm
  | interrupt source =>
      rw [step_eq_serve h, result_account, machine_account]
      exact (hsub _ _).symm
  | instruction =>
      rw [step_eq_advance h, result_account, machine_account]
      exact (hsub _ _).symm

/-- A step that does something takes between two and nine cycles, or moves a block. -/
theorem step_bounds (h : m.core.decide m.irqLine ≠ .idle) :
    if m.core.decide m.irqLine = .instruction ∧ m.fetched.movesBlock then
      m.step.result.toNat = 7 * (m.core.a.toNat + 1)
    else 2 ≤ m.step.result.toNat ∧ m.step.result.toNat ≤ 9 := by
  have hresult : ∀ n, m.step.machine.core.cycles = m.core.cycles + n → m.step.result = n := by
    intro n hn
    rw [step_spends] at hn
    exact (UInt64.add_right_inj _).mp hn
  cases hdecide : m.core.decide m.irqLine with
  | idle => exact absurd hdecide h
  | interrupt source =>
      have hentry := hresult _ (cycles_interrupt hdecide)
      rw [if_neg nofun]
      rw [hentry]
      exact Action.entryCycles_bounds m.core.status
  | instruction =>
      obtain ⟨n, hn, hcycles⟩ := cycles_instruction hdecide
      have hbounds := Instruction.costs_bounds (Instruction.ofOpcode_mem _) hn
      rw [hresult n hcycles]
      by_cases hblock : m.fetched.movesBlock
      · rw [if_pos ⟨rfl, hblock⟩]
        exact (if_pos hblock).mp hbounds
      · rw [if_neg fun hall => hblock hall.2]
        exact (if_neg hblock).mp hbounds

/-- The most cycles that one step can take: those of the longest block move. -/
def longestStep : Nat :=
  458752

/-- No step is longer than a block move of all there is to move. -/
theorem step_le_longestStep (m : Machine B) : m.step.result.toNat ≤ longestStep := by
  have ha := m.core.a.toNat_lt
  rw [longestStep]
  by_cases h : m.core.decide m.irqLine = .idle
  · rw [step_idle h]
    exact Nat.zero_le _
  · have hbounds := step_bounds h
    split at hbounds
    · omega
    · omega

/-- A step makes progress unless the core rests. -/
theorem result_step_eq_zero_iff (m : Machine B) :
    m.step.result = 0 ↔ m.core.decide m.irqLine = .idle := by
  constructor
  · intro hzero
    by_cases h : m.core.decide m.irqLine = .idle
    · exact h
    · have hbounds := step_bounds h
      have hnat : m.step.result.toNat = 0 := congrArg UInt64.toNat hzero
      split at hbounds
      · omega
      · omega
  · intro h
    rw [step_idle h]

/-- No step of one cycle. -/
theorem two_le_step (h : m.step.result ≠ 0) : 2 ≤ m.step.result.toNat := by
  have hbounds := step_bounds (mt m.result_step_eq_zero_iff.mpr h)
  split at hbounds
  · omega
  · exact hbounds.1

/-- As long as the count has room for a step, it grows by what the step takes. -/
theorem toNat_cycles_step (h : m.core.cycles.toNat + longestStep < UInt64.size) :
    m.step.machine.core.cycles.toNat = m.core.cycles.toNat + m.step.result.toNat := by
  have hstep := m.step_le_longestStep
  rw [step_spends, UInt64.toNat_add]
  exact Nat.mod_eq_of_lt (by rw [UInt64.size] at h; omega)

end Machine

end W65C816
