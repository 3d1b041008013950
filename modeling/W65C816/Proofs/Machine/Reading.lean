import W65C816.Proofs.Machine.Cycles

/-!
# Instructions that read an operand

An instruction that reads does nothing to the core until it has its operand. So what a step makes of
the registers and how long it takes are functions of the operand, which `Effect.Yields` and
`Effect.Costs` leave open.

* `Machine.operand` is the operand of the instruction that the bus gives, with the page crossing
  that comes of finding it.
* `Machine.step_reading` gives both functions.
-/

namespace W65C816

namespace Action

variable {B : Type} [Bus B]

/-- An operand is found by its effective address, or where the effective address would be. -/
theorem crossed_readOperand (mode : Mode) (w : Width) (m : Machine B) :
    ((readOperand mode w).run m).1.2 = ((locate mode).run m).1.crossed := by
  cases mode with
  | immediate =>
      cases w with
      | byte => rfl
      | word => rfl
  | _ => rfl

/-- The core is left alone while an operand is read. -/
theorem core_readOperand (mode : Mode) (w : Width) (m : Machine B) :
    ((readOperand mode w).run m).2.core = m.core :=
  ((readOperand_ensures (P := (· = m.core)) mode w).run rfl).2

/-- The registers absorb the operand, and then the program goes on. -/
theorem execute_read {i : Instruction} {size : OperandSize}
    {absorb : Width → UInt16 → Registers → Registers} (he : i.effect = .read size absorb)
    (m : Machine B) :
    let r := m.core.toRegisters
    let w := size.width r.status
    let operand := ((readOperand i.mode w).run m).1
    ((execute i).run m).2.core =
      ((m.core.mapRegisters (absorb w operand.1)).charge (i.baseCycles.toUInt64 +
        (size.extraCycles r.status + r.directPenalty i.mode.usesDirectPage +
          penaltyIf operand.2))).mapRegisters (·.skip (i.size r.status)) := by
  intro r w operand
  rw [← core_readOperand i.mode w m]
  unfold execute
  rw [he]
  rfl

end Action

namespace Machine

variable {B : Type} [Bus B] {m : Machine B} {size : OperandSize}
  {absorb : Width → UInt16 → Registers → Registers}

/-- The machine when it has read the opcode. -/
def opened (m : Machine B) : Machine B :=
  ⟨m.core.wake, (Bus.read m.bus m.core.programAddress).2⟩

/-- The operand of the instruction that the bus gives, read in some width, and whether an index
    takes it to another page. -/
def operand (m : Machine B) (w : Width) : UInt16 × Bool :=
  ((Action.readOperand m.fetched.mode w).run m.opened).1

/-- An operand fits the width that it is read at. -/
theorem fits_operand (m : Machine B) (w : Width) : w.Fits (m.operand w).1 :=
  ((Action.readOperand_ensures (P := fun _ => True) m.fetched.mode w).run trivial).1

/-- The core after a step that reads. -/
theorem step_reading (h : m.core.decide m.irqLine = .instruction)
    (he : m.fetched.effect = .read size absorb) :
    let r := m.core.toRegisters
    let w := size.width r.status
    let n := m.fetched.baseCycles.toUInt64 + (size.extraCycles r.status +
      r.directPenalty m.fetched.mode.usesDirectPage + Action.penaltyIf (m.operand w).2)
    m.step.machine.core.toRegisters =
        (absorb w (m.operand w).1 r).skip (m.fetched.size r.status) ∧
      m.step.machine.core.cycles = m.core.cycles + n := by
  intro r w n
  have hcore := Action.execute_read he m.opened
  rw [step_eq_advance h, machine_account, machine_advance]
  exact ⟨congrArg Core.toRegisters hcore, congrArg Core.cycles hcore⟩

end Machine

end W65C816
