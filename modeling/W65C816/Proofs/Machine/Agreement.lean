import W65C816.Machine.Execute
import W65C816.Proofs.Simulation

/-!
# Actions that agree

An action is written for any bus. On two buses that cannot be told apart it gives the same result,
changes the core in the same way, and leaves buses behind that cannot be told apart.

* `Twins` are two machines with the same core on such buses.
* `Action.Agree` is the relation between actions. It holds of the smallest actions because of the
  simulation, and is kept by `pure` and by `>>=`.
* `Action.locate_agree` and `Action.execute_agree` go through all modes and all effects.
-/

namespace W65C816

variable {B B' : Type}

/-- Two machines with the same core, on related buses. -/
def Twins (T : B → B' → Prop) (m : Machine B) (m' : Machine B') : Prop :=
  m.core = m'.core ∧ T m.bus m'.bus

namespace Stack

variable [Bus B] [Bus B'] {T : B → B' → Prop}

/-- The place that is written depends on the stack pointer alone, so it is the same on both buses.
    -/
theorem pushByte_alike (h : Bus.Simulation T) (s : Stack) {b : B} {b' : B'} (hT : T b b')
    (v : UInt8) : Alike T (s.pushByte b v) (s.pushByte b' v) :=
  ⟨rfl, h.write s.address v hT⟩

theorem pushWord_alike (h : Bus.Simulation T) (s : Stack) {b : B} {b' : B'} (hT : T b b')
    (v : UInt16) : Alike T (s.pushWord b v) (s.pushWord b' v) :=
  s.lowered.pushByte_alike h (h.write s.address (highByte v) hT) (lowByte v)

theorem push_alike (h : Bus.Simulation T) (s : Stack) {b : B} {b' : B'} (hT : T b b')
    (w : Width) (v : UInt16) : Alike T (s.push b w v) (s.push b' w v) := by
  cases w with
  | byte => exact s.pushByte_alike h hT (lowByte v)
  | word => exact s.pushWord_alike h hT v

/-- Two pulls with the same result and the same stack that leave related buses behind. -/
def PullAlike {α : Type} (T : B → B' → Prop) (p : α × Stack × B) (q : α × Stack × B') : Prop :=
  p.1 = q.1 ∧ Alike T p.2 q.2

/-- Only here does the stack take something from the bus. It is the same byte on both. -/
theorem pullByte_alike (h : Bus.Simulation T) (s : Stack) {b : B} {b' : B'} (hT : T b b') :
    PullAlike T (s.pullByte b) (s.pullByte b') := by
  obtain ⟨hv, hT₁⟩ := h.read (s.raised 1).address hT
  exact ⟨hv, rfl, hT₁⟩

/-- The second byte is pulled from a stack that the first pull has moved alike. -/
theorem pullWord_alike (h : Bus.Simulation T) (s : Stack) {b : B} {b' : B'} (hT : T b b') :
    PullAlike T (s.pullWord b) (s.pullWord b') := by
  obtain ⟨hlow, -, hT₁⟩ := s.pullByte_alike h hT
  obtain ⟨hhigh, -, hT₂⟩ := (s.raised 1).pullByte_alike h hT₁
  exact ⟨congrArg₂ joinBytes hlow hhigh, rfl, hT₂⟩

theorem pull_alike (h : Bus.Simulation T) (s : Stack) {b : B} {b' : B'} (hT : T b b')
    (w : Width) : PullAlike T (s.pull b w) (s.pull b' w) := by
  cases w with
  | byte =>
      obtain ⟨hv, hs, hT₁⟩ := s.pullByte_alike h hT
      exact ⟨congrArg UInt8.toUInt16 hv, hs, hT₁⟩
  | word => exact s.pullWord_alike h hT

end Stack

namespace Action

/-- Two actions that give the same result on twins and make twins of them. -/
structure Agree {α : Type} (T : B → B' → Prop) (p : Action B α) (q : Action B' α) : Prop where
  run : ∀ {m : Machine B} {m' : Machine B'}, Twins T m m' →
    Alike (Twins T) (p.run m) (q.run m')

variable {α β : Type} {T : B → B' → Prop}

namespace Agree

theorem pure (v : α) : Agree T (Pure.pure v) (Pure.pure v) :=
  ⟨fun h => ⟨rfl, h⟩⟩

/-- The rule for sequences. The rest need only agree for a value that both first parts give. -/
theorem bind {p : Action B α} {q : Action B' α} {f : α → Action B β} {g : α → Action B' β}
    (hp : Agree T p q) (hf : ∀ v, Agree T (f v) (g v)) : Agree T (p >>= f) (q >>= g) := by
  refine ⟨fun {m m'} h => ?_⟩
  obtain ⟨hv, hm⟩ := hp.run h
  show Alike (Twins T) ((f (p.run m).1).run (p.run m).2) ((g (q.run m').1).run (q.run m').2)
  rw [← hv]
  exact (hf _).run hm

/-- A choice agrees if both its ways do. What is chosen by is the same on both sides. -/
theorem ite {c : Prop} [Decidable c] {p₁ p₂ : Action B α} {q₁ q₂ : Action B' α}
    (h₁ : Agree T p₁ q₁) (h₂ : Agree T p₂ q₂) :
    Agree T (if c then p₁ else p₂) (if c then q₁ else q₂) := by
  by_cases hc : c
  · rw [if_pos hc, if_pos hc]
    exact h₁
  · rw [if_neg hc, if_neg hc]
    exact h₂

/-- Something that is done in one case only, before the rest is done in both. -/
theorem optional {c : Prop} [Decidable c] {p : Action B α} {q : Action B' α} {r : Action B β}
    {r' : Action B' β} (hp : Agree T p q) (hr : Agree T r r') :
    Agree T (if c then p >>= fun _ => r else r) (if c then q >>= fun _ => r' else r') :=
  .ite (hp.bind fun _ => hr) hr

end Agree

/-! ## The smallest actions -/

/-- The core is what twins have in common, so a program may go by it. -/
theorem core_agree : Agree T core core :=
  ⟨fun h => ⟨h.1, h⟩⟩

theorem registers_agree : Agree T registers registers :=
  ⟨fun h => ⟨congrArg Core.toRegisters h.1, h⟩⟩

/-- A change to the core is the same function of equal cores, and does not look at the bus. -/
theorem changeCore_agree (f : Core → Core) : Agree T (changeCore f) (changeCore f) :=
  ⟨fun h => ⟨rfl, congrArg f h.1, h.2⟩⟩

theorem changeRegisters_agree (f : Registers → Registers) :
    Agree T (changeRegisters f) (changeRegisters f) :=
  changeCore_agree _

theorem goTo_agree (pc : UInt16) : Agree T (goTo pc) (goTo pc) :=
  changeRegisters_agree _

theorem charge_agree (n : UInt64) : Agree T (charge n) (charge n) :=
  changeCore_agree _

/-- Going on to the next instruction looks at registers only. -/
theorem retire_agree (i : Instruction) (r : Registers) (penalty : UInt64) :
    Agree T (retire i r penalty) (retire i r penalty) :=
  (charge_agree _).bind fun _ => changeRegisters_agree _

/-- A jump that stays in the bank leaves the program bank alone, and one that does not loads it. -/
theorem arrive_agree (reach : Reach) (target : Address) :
    Agree T (arrive reach target) (arrive reach target) := by
  cases reach with
  | near => exact goTo_agree _
  | far => exact changeRegisters_agree _

/-- An action that pushes agrees if its way of pushing does. -/
theorem pushing_agree {push : Stack → B → Stack × B} {push' : Stack → B' → Stack × B'}
    (hpush : ∀ (s : Stack) {b b'}, T b b' → Alike T (push s b) (push' s b'))
    {p : Action B Unit} {q : Action B' Unit}
    (hp : ∀ m, p.run m = ((), ⟨{ m.core with stack := (push m.core.stack m.bus).1 },
      (push m.core.stack m.bus).2⟩))
    (hq : ∀ m, q.run m = ((), ⟨{ m.core with stack := (push' m.core.stack m.bus).1 },
      (push' m.core.stack m.bus).2⟩)) : Agree T p q := by
  refine ⟨?_⟩
  rintro ⟨c, b⟩ ⟨c', b'⟩ ⟨hc, hT⟩
  obtain rfl : c = c' := hc
  obtain ⟨hs, hT₁⟩ := hpush c.stack hT
  rw [hp, hq]
  exact ⟨rfl, congrArg (fun stack => ({ c with stack } : Core)) hs, hT₁⟩

/-- An action that pulls agrees if its way of pulling does. -/
theorem pulling_agree {pull : Stack → B → α × Stack × B} {pull' : Stack → B' → α × Stack × B'}
    (hpull : ∀ (s : Stack) {b b'}, T b b' → Stack.PullAlike T (pull s b) (pull' s b'))
    {p : Action B α} {q : Action B' α}
    (hp : ∀ m, p.run m = ((pull m.core.stack m.bus).1,
      ⟨{ m.core with stack := (pull m.core.stack m.bus).2.1 }, (pull m.core.stack m.bus).2.2⟩))
    (hq : ∀ m, q.run m = ((pull' m.core.stack m.bus).1,
      ⟨{ m.core with stack := (pull' m.core.stack m.bus).2.1 }, (pull' m.core.stack m.bus).2.2⟩)) :
    Agree T p q := by
  refine ⟨?_⟩
  rintro ⟨c, b⟩ ⟨c', b'⟩ ⟨hc, hT⟩
  obtain rfl : c = c' := hc
  obtain ⟨hv, hs, hT₁⟩ := hpull c.stack hT
  rw [hp, hq]
  exact ⟨hv, congrArg (fun stack => ({ c with stack } : Core)) hs, hT₁⟩

variable [Bus B] [Bus B']

/-- A byte that is read is the same on both buses, and may change either of them. -/
theorem read_agree (h : Bus.Simulation T) (a : Address) : Agree T (read a) (read a) := by
  refine ⟨fun ⟨hc, hT⟩ => ?_⟩
  obtain ⟨hv, hT₁⟩ := h.read a hT
  exact ⟨hv, hc, hT₁⟩

/-- A byte that is written gives no result, and leaves related buses behind. -/
theorem write_agree (h : Bus.Simulation T) (a : Address) (v : UInt8) :
    Agree T (write a v) (write a v) :=
  ⟨fun ⟨hc, hT⟩ => ⟨rfl, hc, h.write a v hT⟩⟩

/-- A word is one access of the bus and not two readings, since a bus may serve it as one. -/
theorem readWord_agree (h : Bus.Simulation T) (a : Address) :
    Agree T (readWord a) (readWord a) := by
  refine ⟨fun ⟨hc, hT⟩ => ?_⟩
  obtain ⟨hv, hT₁⟩ := h.readWord a hT
  exact ⟨hv, hc, hT₁⟩

theorem writeWord_agree (h : Bus.Simulation T) (a : Address) (v : UInt16) :
    Agree T (writeWord a v) (writeWord a v) :=
  ⟨fun ⟨hc, hT⟩ => ⟨rfl, hc, h.writeWord a v hT⟩⟩

/-- Only a word at the end of its bank is read in two bytes. The bus serves any other whole. -/
theorem readWordInBank_agree (h : Bus.Simulation T) (a : Address) :
    Agree T (readWordInBank a) (readWordInBank a) := by
  refine ⟨fun ⟨hc, hT⟩ => ?_⟩
  obtain ⟨hv, hT₁⟩ := h.readWordInBank a hT
  exact ⟨hv, hc, hT₁⟩

theorem writeWordInBank_agree (h : Bus.Simulation T) (a : Address) (v : UInt16) :
    Agree T (writeWordInBank a v) (writeWordInBank a v) :=
  ⟨fun ⟨hc, hT⟩ => ⟨rfl, hc, h.writeWordInBank a v hT⟩⟩

/-- A pointer near the end of its bank is read as a word and a byte behind it. -/
theorem readPointerInBank_agree (h : Bus.Simulation T) (a : Address) :
    Agree T (readPointerInBank a) (readPointerInBank a) := by
  refine ⟨fun ⟨hc, hT⟩ => ?_⟩
  obtain ⟨hv, hT₁⟩ := h.readPointerInBank a hT
  exact ⟨hv, hc, hT₁⟩

theorem pushByte_agree (h : Bus.Simulation T) (v : UInt8) :
    Agree T (pushByte v) (pushByte v) :=
  pushing_agree (fun s _ _ hT => s.pushByte_alike h hT v) (fun _ => rfl) (fun _ => rfl)

theorem pushWord_agree (h : Bus.Simulation T) (v : UInt16) :
    Agree T (pushWord v) (pushWord v) :=
  pushing_agree (fun s _ _ hT => s.pushWord_alike h hT v) (fun _ => rfl) (fun _ => rfl)

/-- Pushing a register pushes as many bytes as the register is wide. -/
theorem push_agree (h : Bus.Simulation T) (w : Width) (v : UInt16) :
    Agree T (push w v) (push w v) :=
  pushing_agree (fun s _ _ hT => s.push_alike h hT w v) (fun _ => rfl) (fun _ => rfl)

theorem pullByte_agree (h : Bus.Simulation T) : Agree T pullByte pullByte :=
  pulling_agree (fun s _ _ hT => s.pullByte_alike h hT) (fun _ => rfl) (fun _ => rfl)

theorem pullWord_agree (h : Bus.Simulation T) : Agree T pullWord pullWord :=
  pulling_agree (fun s _ _ hT => s.pullWord_alike h hT) (fun _ => rfl) (fun _ => rfl)

theorem pull_agree (h : Bus.Simulation T) (w : Width) : Agree T (pull w) (pull w) :=
  pulling_agree (fun s _ _ hT => s.pull_alike h hT w) (fun _ => rfl) (fun _ => rfl)

/-! ## Operands -/

/-- Operands lie after the opcode, at a place that only the core decides. -/
theorem operandByte_agree (h : Bus.Simulation T) : Agree T operandByte operandByte :=
  registers_agree.bind fun r => read_agree h r.operandAddress

theorem operandWord_agree (h : Bus.Simulation T) : Agree T operandWord operandWord :=
  registers_agree.bind fun r => readWordInBank_agree h r.operandAddress

theorem operandLong_agree (h : Bus.Simulation T) : Agree T operandLong operandLong :=
  registers_agree.bind fun r => readPointerInBank_agree h r.operandAddress

/-- The second byte of a pointer on the direct page may lie on the same page or the next. -/
theorem directPointer_agree (h : Bus.Simulation T) (a : Address) :
    Agree T (directPointer a) (directPointer a) := by
  refine registers_agree.bind fun r => .ite ?_ ?_
  · refine (read_agree h a).bind fun low => ?_
    exact (read_agree h _).bind fun high => .pure _
  · exact readWordInBank_agree h a

/-- Finding an operand reads at most operand and pointer, and computes with registers otherwise. -/
theorem locate_agree (h : Bus.Simulation T) (mode : Mode) :
    Agree T (locate mode) (locate mode) := by
  refine registers_agree.bind fun r => ?_
  -- A mode that reads a pointer has its operand first, which the pointer is found by.
  cases mode with
  | implied | accumulator | stackImplied | interrupt => exact .pure _
  | immediate | relative | relativeLong | blockMove | stackAbsolute
  | stackProgramCounterRelative => exact .pure _
  | absolute | absoluteX | absoluteY => exact (operandWord_agree h).bind fun offset => .pure _
  | absoluteLong | absoluteLongX => exact (operandLong_agree h).bind fun target => .pure _
  | absoluteIndirect | absoluteIndexedIndirect =>
      refine (operandWord_agree h).bind fun place => ?_
      exact (readWordInBank_agree h _).bind fun offset => .pure _
  | absoluteIndirectLong =>
      refine (operandWord_agree h).bind fun place => ?_
      exact (readPointerInBank_agree h _).bind fun target => .pure _
  | direct | stackDirectIndirect | directX | directY | stackRelative =>
      exact (operandByte_agree h).bind fun displacement => .pure _
  | directIndirect | directIndexedIndirect | directIndirectIndexed =>
      refine (operandByte_agree h).bind fun displacement => ?_
      exact (directPointer_agree h _).bind fun offset => .pure _
  | directIndirectLong | directIndirectLongIndexed =>
      refine (operandByte_agree h).bind fun displacement => ?_
      exact (readPointerInBank_agree h _).bind fun target => .pure _
  | stackRelativeIndirectIndexed =>
      refine (operandByte_agree h).bind fun displacement => ?_
      exact (readWordInBank_agree h _).bind fun offset => .pure _

/-- The mode decides how the second byte of a word is found, and not who serves it. -/
theorem readData_agree (h : Bus.Simulation T) (a : Address) (mode : Mode) (w : Width) :
    Agree T (readData a mode w) (readData a mode w) := by
  cases w with
  | byte => exact (read_agree h a).bind fun v => .pure _
  | word => exact .ite (readWordInBank_agree h a) (readWord_agree h a)

theorem writeData_agree (h : Bus.Simulation T) (a : Address) (mode : Mode) (w : Width)
    (v : UInt16) : Agree T (writeData a mode w v) (writeData a mode w v) := by
  cases w with
  | byte => exact write_agree h a (lowByte v)
  | word => exact .ite (writeWordInBank_agree h a v) (writeWord_agree h a v)

/-- An immediate operand is read after the opcode, and any other where it is found. -/
theorem readOperand_agree (h : Bus.Simulation T) (mode : Mode) (w : Width) :
    Agree T (readOperand mode w) (readOperand mode w) := by
  cases mode with
  | immediate =>
      cases w with
      | byte => exact (operandByte_agree h).bind fun v => .pure _
      | word => exact (operandWord_agree h).bind fun v => .pure _
  | _ =>
      refine (locate_agree h _).bind fun place => ?_
      exact (readData_agree h place.address _ w).bind fun v => .pure _

/-- An operand in memory is read, changed and written to where it was read. -/
theorem alterOperand_agree (h : Bus.Simulation T) (mode : Mode) (w : Width)
    (change : UInt16 → Registers → UInt16 × Status) :
    Agree T (alterOperand mode w change) (alterOperand mode w change) := by
  refine .ite (changeRegisters_agree _) ?_
  refine (locate_agree h mode).bind fun place => ?_
  refine (readData_agree h place.address mode w).bind fun v => ?_
  refine registers_agree.bind fun r => ?_
  refine (changeRegisters_agree _).bind fun _ => ?_
  exact writeData_agree h place.address mode w _

/-! ## Instructions -/

/-- Entering an interrupt pushes the frame and reads the vector. The mode and the source are in the
    core. -/
theorem enterInterrupt_agree (h : Bus.Simulation T) (source : Interrupt) (returnTo : UInt16) :
    Agree T (enterInterrupt source returnTo) (enterInterrupt source returnTo) := by
  refine core_agree.bind fun c => ?_
  refine .optional (pushByte_agree h _) ?_
  refine (pushWord_agree h _).bind fun _ => ?_
  refine (pushByte_agree h _).bind fun _ => ?_
  refine (changeRegisters_agree _).bind fun _ => ?_
  refine (readWordInBank_agree h _).bind fun handler => ?_
  exact (goTo_agree handler).bind fun _ => charge_agree _

/-- One byte of a block is read in one bank and written in another. -/
theorem moveByte_agree (h : Bus.Simulation T) (direction : Direction) (source destination : UInt8)
    (cycles : UInt64) :
    Agree T (moveByte direction source destination cycles)
      (moveByte direction source destination cycles) := by
  refine registers_agree.bind fun r => ?_
  refine (read_agree h _).bind fun v => ?_
  refine (write_agree h _ v).bind fun _ => ?_
  exact (changeRegisters_agree _).bind fun _ => charge_agree cycles

/-- A block is moved by induction on the bytes that remain. -/
theorem moveBytes_agree (h : Bus.Simulation T) (direction : Direction)
    (source destination : UInt8) (cycles : UInt64) (n : Nat) :
    Agree T (moveBytes direction source destination cycles n)
      (moveBytes direction source destination cycles n) := by
  induction n with
  | zero => exact .pure ()
  | succ n ih => exact (moveByte_agree h direction source destination cycles).bind fun _ => ih

/-- The number of bytes is in the accumulator when the instruction begins. -/
theorem moveBlock_agree (h : Bus.Simulation T) (i : Instruction) (direction : Direction) :
    Agree T (moveBlock i direction) (moveBlock i direction) := by
  refine registers_agree.bind fun r => ?_
  refine (read_agree h _).bind fun destination => ?_
  refine (read_agree h _).bind fun source => ?_
  refine (changeRegisters_agree _).bind fun _ => ?_
  refine (moveBytes_agree h direction source destination _ _).bind fun _ => ?_
  exact changeRegisters_agree _

theorem branch_agree (h : Bus.Simulation T) (i : Instruction) (taken : Bool) :
    Agree T (branch i taken) (branch i taken) := by
  refine registers_agree.bind fun r => ?_
  refine (operandByte_agree h).bind fun distance => .ite ?_ ?_
  · exact (charge_agree _).bind fun _ => goTo_agree _
  · exact (charge_agree _).bind fun _ => goTo_agree _

/-- Whatever an instruction does, it does the same on both buses. -/
theorem execute_agree (h : Bus.Simulation T) (i : Instruction) :
    Agree T (execute i) (execute i) := by
  refine registers_agree.bind fun r => ?_
  -- Each case follows its line in `execute`: one rule for each action, and what is done with its
  -- value is left to the next.
  cases i.effect with
  | read size absorb =>
      refine (readOperand_agree h i.mode _).bind fun p => ?_
      exact (changeRegisters_agree _).bind fun _ => retire_agree i r _
  | write size value =>
      refine (locate_agree h i.mode).bind fun place => ?_
      exact (writeData_agree h _ _ _ _).bind fun _ => retire_agree i r _
  | alter change =>
      refine (alterOperand_agree h i.mode _ _).bind fun _ => ?_
      exact .ite (retire_agree i r _) (retire_agree i r _)
  | adjust change => exact (changeRegisters_agree change).bind fun _ => retire_agree i r _
  | mask change =>
      refine (operandByte_agree h).bind fun bits => ?_
      exact (changeRegisters_agree _).bind fun _ => retire_agree i r _
  | push size value => exact (push_agree h _ _).bind fun _ => retire_agree i r _
  | pull size absorb =>
      refine (pull_agree h _).bind fun v => ?_
      exact (changeRegisters_agree _).bind fun _ => retire_agree i r _
  | pushOperand value =>
      refine (locate_agree h i.mode).bind fun place => ?_
      refine (readWordInBank_agree h _).bind fun v => ?_
      exact (pushWord_agree h _).bind fun _ => retire_agree i r _
  | branch taken => exact branch_agree h i _
  | branchLong =>
      refine (operandWord_agree h).bind fun distance => ?_
      exact (goTo_agree _).bind fun _ => charge_agree _
  | jump reach =>
      refine (locate_agree h i.mode).bind fun place => ?_
      exact (arrive_agree reach _).bind fun _ => charge_agree _
  | call reach =>
      refine (locate_agree h i.mode).bind fun place => ?_
      refine .optional (pushByte_agree h r.pbr) ?_
      refine (pushWord_agree h _).bind fun _ => ?_
      exact (arrive_agree reach _).bind fun _ => charge_agree _
  | finishCall reach =>
      refine (pullWord_agree h).bind fun offset => ?_
      cases reach with
      | near =>
          -- The bank is given and not pulled, which is a sequence all the same.
          refine Agree.bind (.pure r.pbr) fun bank => ?_
          exact (arrive_agree .near _).bind fun _ => charge_agree _
      | far =>
          refine (pullByte_agree h).bind fun bank => ?_
          exact (arrive_agree .far _).bind fun _ => charge_agree _
  | finishInterrupt =>
      refine (pullByte_agree h).bind fun bits => ?_
      refine (changeRegisters_agree _).bind fun _ => ?_
      refine (pullWord_agree h).bind fun offset => .ite ?_ ?_
      · exact (goTo_agree offset).bind fun _ => charge_agree _
      · refine (pullByte_agree h).bind fun bank => ?_
        exact (arrive_agree .far _).bind fun _ => charge_agree _
  | interrupt source => exact enterInterrupt_agree h source _
  | moveBlock direction => exact moveBlock_agree h i direction
  | wait => exact (changeCore_agree _).bind fun _ => retire_agree i r 0
  | stop => exact (changeCore_agree _).bind fun _ => retire_agree i r 0

end Action

end W65C816
