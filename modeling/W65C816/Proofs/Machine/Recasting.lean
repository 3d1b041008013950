import W65C816.Proofs.Machine.Inversion

/-!
# Registers that nobody looks at

Whether something of the registers can be told from what a program does is a question about two
runs: one machine, and the same machine with the hidden part changed. A change is a function here,
and that a part is hidden means that what the program does commutes with changing it.

* A `Recasting` changes the accumulator and the direct page register, and nothing else.
* `Action.Carries` relates two actions by the changes that lead from the first machine to the second
  before and after them. It goes through `>>=`, where `Action.Ensures` says what is known of the
  first run in between. Whatever only moves data or looks for operands carries a change on as it is.
* `Effect.Carries` is what is left to be asked of the functions in the table of effects.
  `Action.execute_carries` goes through all effects once, and `Machine.step_recast` and
  `Machine.step_recast_of_ne` are what follows for a step.
* Most operations see the accumulator at its width only. `Instruction.effect_carries` says once for
  them all that a change that is `Recasting.Unseen` at this width is carried on.

The direct page register takes part in finding operands, so it may change only where the direct page
stays what it is: `Registers.SamePage`.
-/

namespace W65C816

/-! ## Changed registers -/

/-- A change of the accumulator and of the direct page register, each by what it was. -/
structure Recasting where
  a : UInt16 → UInt16
  d : UInt16 → UInt16

/-- No change. -/
def Recasting.none : Recasting :=
  ⟨id, id⟩

variable {t t' t'' : Recasting}

namespace Registers

/-- The registers after a change. -/
def recast (t : Recasting) (r : Registers) : Registers :=
  { r with a := t.a r.a, d := t.d r.d }

/-- Whether a change leaves the direct page where it is. In emulation mode it is page 0 anyway. -/
def SamePage (t : Recasting) (r : Registers) : Prop :=
  r.status.emulation = true ∨ t.d r.d = r.d

variable {r : Registers}

/-- On the same direct page, all places are where they were. -/
theorem directAddress_recast (h : r.SamePage t) (displacement : UInt8) (index : UInt16) :
    (r.recast t).directAddress displacement index = r.directAddress displacement index := by
  unfold directAddress
  obtain he | hd := h
  · rw [if_pos he]
    exact if_pos he
  · show (if r.status.emulation then _ else (⟨0, t.d r.d + _ + _⟩ : Address)) = _
    rw [hd]

/-- The page being the same, it is aligned in both runs or in none. -/
theorem directPenalty_recast (h : r.SamePage t) (usesDirectPage : Bool) :
    (r.recast t).directPenalty usesDirectPage = r.directPenalty usesDirectPage := by
  unfold directPenalty
  obtain he | hd := h
  · show (if !r.status.emulation && _ && _ then _ else _) = _
    rw [he]
    rfl
  · show (if _ && _ && lowByte (t.d r.d) != 0 then _ else _) = _
    rw [hd]
    rfl

end Registers

namespace Core

/-- The core after a change of its registers. -/
def recast (t : Recasting) (c : Core) : Core :=
  c.mapRegisters (Registers.recast t)

/-- Acknowledging an interrupt looks at pins and latches, and not at these registers. -/
theorem acknowledge_recast (c : Core) (source : Interrupt) :
    (c.recast t).acknowledge source = (c.acknowledge source).recast t := by
  cases source with
  | abort | nmi | irq | brk | cop => rfl

end Core

namespace Machine

/-- The machine after a change of its registers. -/
def recast {B : Type} (t : Recasting) (m : Machine B) : Machine B :=
  { m with core := m.core.recast t }

end Machine

namespace Action

variable {B α β : Type} {P : Core → Prop}

/-- From a core with `P`, the second action does after the change `t` what the first does without:
    it gives the same result, and a machine that the change `t'` makes of the other. -/
structure Carries (P : Core → Prop) (t t' : Recasting) (p q : Action B α) : Prop where
  run : ∀ {m : Machine B}, P m.core →
    q.run (m.recast t) = ((p.run m).1, (p.run m).2.recast t')

/-! ## Rules -/

namespace Carries

/-- A value that does not depend on the registers is given alike. -/
theorem pure (v : α) : Carries P t t (Pure.pure v : Action B α) (Pure.pure v) :=
  ⟨fun _ => rfl⟩

/-- The first part takes the change `t` to `t'`, and the second one goes on from there. What the
    first part ensures of the core may be used. -/
theorem bind {Q : α → Core → Prop} {p p' : Action B α} {k k' : α → Action B β}
    (hp : Carries P t t' p p') (he : Ensures P p Q)
    (hk : ∀ v, Carries (Q v) t' t'' (k v) (k' v)) : Carries P t t'' (p >>= k) (p' >>= k') := by
  refine ⟨fun {m} hP => ?_⟩
  show (k' (p'.run (m.recast t)).1).run (p'.run (m.recast t)).2 =
    (((k (p.run m).1).run (p.run m).2).1, ((k (p.run m).1).run (p.run m).2).2.recast t'')
  rw [hp.run hP]
  exact (hk _).run (he.run hP)

/-- Nothing is known of what comes in between. -/
theorem andThen {p p' : Action B α} {k k' : α → Action B β} (hp : Carries P t t' p p')
    (hk : ∀ v, Carries (fun _ => True) t' t'' (k v) (k' v)) :
    Carries P t t'' (p >>= k) (p' >>= k') :=
  hp.bind ⟨fun _ => trivial⟩ hk

/-- Both runs have to take the same way, so the condition must not see the change. -/
theorem ite {c : Prop} [Decidable c] {p p' q q' : Action B α} (hp : Carries P t t' p p')
    (hq : Carries P t t' q q') : Carries P t t' (if c then p else q) (if c then p' else q') := by
  by_cases hc : c
  · rw [if_pos hc, if_pos hc]
    exact hp
  · rw [if_neg hc, if_neg hc]
    exact hq

/-- Something that is done in one case only, before the rest is done in both. -/
theorem optional {c : Prop} [Decidable c] {p p' : Action B α} {q q' : Action B β}
    (hp : Carries P t t p p') (hq : Carries (fun _ => True) t t' q q') :
    Carries P t t' (if c then p >>= fun _ => q else q) (if c then p' >>= fun _ => q' else q') :=
  .ite (hp.andThen fun _ => hq) ⟨fun _ => hq.run trivial⟩

/-- What looks at the registers sees the changed ones in the second run. -/
theorem registers_bind {k k' : Registers → Action B β}
    (hk : ∀ c, P c → Carries (· = c) t t' (k c.toRegisters) (k' (c.toRegisters.recast t))) :
    Carries P t t' (registers >>= k) (registers >>= k') :=
  ⟨fun {m} hP => (hk m.core hP).run rfl⟩

/-- What looks at the whole core sees the change as well. -/
theorem core_bind {k k' : Core → Action B β}
    (hk : ∀ c, P c → Carries (· = c) t t' (k c) (k' (c.recast t))) :
    Carries P t t' (core >>= k) (core >>= k') :=
  ⟨fun {m} hP => (hk m.core hP).run rfl⟩

end Carries

/-! ## The smallest actions -/

/-- A change of the core carries `t` on if the order of the two does not matter. -/
theorem changeCore_carries {u : Core → Core} (hu : ∀ c, u (c.recast t) = (u c).recast t) :
    Carries P t t (changeCore u : Action B Unit) (changeCore u) := by
  refine ⟨fun {m} _ => ?_⟩
  show ((), (⟨u (m.core.recast t), m.bus⟩ : Machine B)) = ((), ⟨(u m.core).recast t, m.bus⟩)
  rw [hu]

/-- A change of the registers may take `t` to another one: a register that is loaded forgets what it
    was. -/
theorem changeRegisters_carries {u u' : Registers → Registers}
    (hu : ∀ c, P c → u' (c.toRegisters.recast t) = (u c.toRegisters).recast t') :
    Carries P t t' (changeRegisters u : Action B Unit) (changeRegisters u') := by
  refine ⟨fun {m} hP => ?_⟩
  show ((), (⟨{ m.core with toRegisters := u' (m.core.toRegisters.recast t) }, m.bus⟩ : Machine B))
    = ((), ⟨{ m.core with toRegisters := (u m.core.toRegisters).recast t' }, m.bus⟩)
  rw [hu m.core hP]

theorem goTo_carries (pc : UInt16) : Carries P t t (goTo pc : Action B Unit) (goTo pc) :=
  changeRegisters_carries fun _ _ => rfl

theorem charge_carries (n : UInt64) : Carries P t t (charge n : Action B Unit) (charge n) :=
  changeCore_carries fun _ => rfl

/-- The registers an instruction starts with count by their flags alone when it ends. -/
theorem retire_carries (i : Instruction) (r : Registers) {penalty penalty' : UInt64}
    (hp : penalty' = penalty) :
    Carries P t t (retire i r penalty : Action B Unit) (retire i (r.recast t') penalty') := by
  rw [hp]
  exact (charge_carries _).andThen fun _ => changeRegisters_carries fun _ _ => rfl

/-- Jumps set the program counter and the program bank, which are not changed. -/
theorem arrive_carries (reach : Reach) (target : Address) :
    Carries P t t (arrive reach target : Action B Unit) (arrive reach target) := by
  cases reach with
  | near => exact goTo_carries _
  | far => exact changeRegisters_carries fun _ _ => rfl

variable [Bus B]

/-- The bus is the same in both runs, so a reading from the same place gives the same byte. -/
theorem read_carries (a : Address) : Carries P t t (read a : Action B UInt8) (read a) :=
  ⟨fun _ => rfl⟩

theorem write_carries (a : Address) (v : UInt8) :
    Carries P t t (write a v : Action B Unit) (write a v) :=
  ⟨fun _ => rfl⟩

theorem readWord_carries (a : Address) :
    Carries P t t (readWord a : Action B UInt16) (readWord a) :=
  ⟨fun _ => rfl⟩

theorem writeWord_carries (a : Address) (v : UInt16) :
    Carries P t t (writeWord a v : Action B Unit) (writeWord a v) :=
  ⟨fun _ => rfl⟩

theorem readWordInBank_carries (a : Address) :
    Carries P t t (readWordInBank a : Action B UInt16) (readWordInBank a) :=
  ⟨fun _ => rfl⟩

theorem writeWordInBank_carries (a : Address) (v : UInt16) :
    Carries P t t (writeWordInBank a v : Action B Unit) (writeWordInBank a v) :=
  ⟨fun _ => rfl⟩

theorem readPointerInBank_carries (a : Address) :
    Carries P t t (readPointerInBank a : Action B Address) (readPointerInBank a) :=
  ⟨fun _ => rfl⟩

theorem pushByte_carries (v : UInt8) :
    Carries P t t (pushByte v : Action B Unit) (pushByte v) :=
  ⟨fun _ => rfl⟩

theorem pushWord_carries (v : UInt16) :
    Carries P t t (pushWord v : Action B Unit) (pushWord v) :=
  ⟨fun _ => rfl⟩

/-- Of the value that is pushed only what the width lets through counts. -/
theorem push_carries {w : Width} {v v' : UInt16} (hv : w.truncate v' = w.truncate v) :
    Carries P t t (push w v : Action B Unit) (push w v') := by
  cases w with
  | byte =>
      show Carries P t t (pushByte (lowByte v)) (pushByte (lowByte v'))
      rw [lowByte_eq_of_truncate hv]
      exact pushByte_carries _
  | word =>
      obtain rfl : v' = v := hv
      exact pushWord_carries _

theorem pullByte_carries : Carries P t t (pullByte : Action B UInt8) pullByte :=
  ⟨fun _ => rfl⟩

theorem pullWord_carries : Carries P t t (pullWord : Action B UInt16) pullWord :=
  ⟨fun _ => rfl⟩

/-- What is pulled is the same in both runs. What becomes of it is left to the effect. -/
theorem pull_carries (w : Width) : Carries P t t (pull w : Action B UInt16) (pull w) := by
  cases w with
  | byte => exact ⟨fun _ => rfl⟩
  | word => exact ⟨fun _ => rfl⟩

/-! ## Operands -/

theorem operandByte_carries : Carries P t t (operandByte : Action B UInt8) operandByte :=
  .registers_bind fun _ _ => read_carries _

theorem operandWord_carries : Carries P t t (operandWord : Action B UInt16) operandWord :=
  .registers_bind fun _ _ => readWordInBank_carries _

theorem operandLong_carries : Carries P t t (operandLong : Action B Address) operandLong :=
  .registers_bind fun _ _ => readPointerInBank_carries _

theorem directPointer_carries (a : Address) :
    Carries P t t (directPointer a : Action B UInt16) (directPointer a) := by
  refine .registers_bind fun c _ => .ite ?_ ?_
  · refine (read_carries a).andThen fun low => ?_
    exact (read_carries _).andThen fun high => .pure _
  · exact readWordInBank_carries a

/-- The effective address is the same as long as the direct page is. -/
theorem locate_carries (mode : Mode) (hpage : ∀ c, P c → c.toRegisters.SamePage t) :
    Carries P t t (locate mode : Action B Located) (locate mode) := by
  refine .registers_bind fun c hP => ?_
  -- The direct page is all of the changed registers that an address can depend on.
  have hdirect := Registers.directAddress_recast (hpage c hP)
  cases mode with
  | implied | accumulator | stackImplied | interrupt => exact .pure _
  | immediate | relative | relativeLong | blockMove | stackAbsolute
  | stackProgramCounterRelative => exact .pure _
  | absolute | absoluteX | absoluteY => exact operandWord_carries.andThen fun offset => .pure _
  | absoluteLong | absoluteLongX => exact operandLong_carries.andThen fun target => .pure _
  | absoluteIndirect | absoluteIndexedIndirect =>
      refine operandWord_carries.andThen fun place => ?_
      exact (readWordInBank_carries _).andThen fun offset => .pure _
  | absoluteIndirectLong =>
      refine operandWord_carries.andThen fun place => ?_
      exact (readPointerInBank_carries _).andThen fun target => .pure _
  | direct | stackDirectIndirect | directX | directY =>
      refine operandByte_carries.andThen fun displacement => ?_
      rw [← hdirect displacement]
      exact .pure _
  | directIndirect | directIndexedIndirect | directIndirectIndexed =>
      refine operandByte_carries.andThen fun displacement => ?_
      rw [← hdirect displacement]
      exact (directPointer_carries _).andThen fun offset => .pure _
  | directIndirectLong | directIndirectLongIndexed =>
      refine operandByte_carries.andThen fun displacement => ?_
      rw [← hdirect displacement]
      exact (readPointerInBank_carries _).andThen fun target => .pure _
  | stackRelative => exact operandByte_carries.andThen fun displacement => .pure _
  | stackRelativeIndirectIndexed =>
      refine operandByte_carries.andThen fun displacement => ?_
      exact (readWordInBank_carries _).andThen fun offset => .pure _

/-- Data are read alike from the same place. -/
theorem readData_carries (a : Address) (mode : Mode) (w : Width) :
    Carries P t t (readData a mode w : Action B UInt16) (readData a mode w) := by
  cases w with
  | byte => exact (read_carries a).andThen fun v => .pure _
  | word => exact .ite (readWordInBank_carries a) (readWord_carries a)

theorem writeData_carries (a : Address) (mode : Mode) {w : Width} {v v' : UInt16}
    (hv : w.truncate v' = w.truncate v) :
    Carries P t t (writeData a mode w v : Action B Unit) (writeData a mode w v') := by
  cases w with
  | byte =>
      show Carries P t t (write a (lowByte v)) (write a (lowByte v'))
      rw [lowByte_eq_of_truncate hv]
      exact write_carries a _
  | word =>
      obtain rfl : v' = v := hv
      exact .ite (writeWordInBank_carries a _) (writeWord_carries a _)

/-- The two cores read their operands at the same address. -/
theorem readOperand_carries (mode : Mode) (w : Width)
    (hpage : ∀ c, P c → c.toRegisters.SamePage t) :
    Carries P t t (readOperand mode w : Action B (UInt16 × Bool)) (readOperand mode w) := by
  cases mode with
  | immediate =>
      cases w with
      | byte => exact operandByte_carries.andThen fun v => .pure _
      | word => exact operandWord_carries.andThen fun v => .pure _
  | _ =>
      refine (locate_carries _ hpage).andThen fun place => ?_
      exact (readData_carries place.address _ w).andThen fun v => .pure _

/-- A change of the operand that gives the same result and the same flags is made in the same place.
    In the accumulator it has to carry on what is hidden there. -/
theorem alterOperand_carries (mode : Mode) (w : Width) {c : Core}
    {change : UInt16 → Registers → UInt16 × Status} (hpage : c.toRegisters.SamePage t)
    (hmemory : ∀ v, change v (c.toRegisters.recast t) = change v c.toRegisters)
    (haccumulator : (c.toRegisters.recast t).altered change =
      (c.toRegisters.altered change).recast t) :
    Carries (· = c) t t (alterOperand mode w change : Action B Unit)
      (alterOperand mode w change) := by
  have hc : ∀ now, now = c → now.toRegisters.SamePage t := fun _ h => h ▸ hpage
  refine .ite ?_ ?_
  · refine changeRegisters_carries ?_
    rintro _ rfl
    exact haccumulator
  · refine (locate_carries mode hc).bind (locate_keeps mode) fun place => ?_
    refine (readData_carries place.address mode w).bind (readData_ensures place.address mode w) ?_
    refine fun v => .registers_bind ?_
    rintro now ⟨-, hnow⟩
    rw [hnow, hmemory]
    obtain ⟨result, status⟩ := change v c.toRegisters
    refine Carries.andThen ?_ fun _ => writeData_carries place.address mode rfl
    exact changeRegisters_carries fun _ _ => rfl

end Action

/-! ## Instructions -/

/-- What the functions of an effect have to do for the change `t` before an instruction to be the
    change `t'` after it, if the instruction starts with the registers `r`. Where none of them makes
    registers of registers, both changes are the same. -/
def Effect.Carries (t t' : Recasting) (r : Registers) : Effect → Prop
  | read size absorb =>
      ∀ v, absorb (size.width r.status) v (r.recast t) =
        (absorb (size.width r.status) v r).recast t'
  | write size value | push size value =>
      t' = t ∧ (size.width r.status).truncate (value (r.recast t)) =
        (size.width r.status).truncate (value r)
  | alter change =>
      t' = t ∧
        (∀ v, change r.status.accumulatorWidth v (r.recast t) =
          change r.status.accumulatorWidth v r) ∧
        (r.recast t).altered (change r.status.accumulatorWidth) =
          (r.altered (change r.status.accumulatorWidth)).recast t
  | adjust change => change (r.recast t) = (change r).recast t'
  | pull size absorb =>
      ∀ v s, absorb (size.width r.status) v ((r.moveStack s).recast t) =
        (absorb (size.width r.status) v (r.moveStack s)).recast t'
  | pushOperand value => t' = t ∧ ∀ v, value (r.recast t) v = value r v
  | moveBlock _ => t' = t ∧ ∀ v, t.a v = v
  | _ => t' = t

namespace Action

variable {B : Type} [Bus B] {P : Core → Prop}

/-- The frame of an interrupt has the program counter and the flags, and neither of the changed
    registers. -/
theorem enterInterrupt_carries (source : Interrupt) (returnTo : UInt16) :
    Carries P t t (enterInterrupt source returnTo : Action B Unit)
      (enterInterrupt source returnTo) := by
  refine .core_bind fun c _ => ?_
  refine .optional (pushByte_carries _) ?_
  refine (pushWord_carries _).andThen fun _ => ?_
  refine (pushByte_carries _).andThen fun _ => ?_
  refine Carries.andThen (changeRegisters_carries fun _ _ => rfl) fun _ => ?_
  refine (readWordInBank_carries _).andThen fun handler => ?_
  exact (goTo_carries handler).andThen fun _ => charge_carries _

/-- The bytes are counted in the accumulator, and everything else about a move is in other
    registers. -/
theorem moveByte_carries (ha : ∀ v, t.a v = v) (direction : Direction)
    (source destination : UInt8) (cycles : UInt64) :
    Carries P t t (moveByte direction source destination cycles : Action B Unit)
      (moveByte direction source destination cycles) := by
  refine .registers_bind fun c _ => ?_
  refine (read_carries _).andThen fun v => ?_
  refine (write_carries _ v).andThen fun _ => ?_
  refine Carries.andThen (changeRegisters_carries fun c _ => ?_) fun _ => charge_carries cycles
  simp only [Registers.recast, Registers.indexed, ha]

theorem moveBytes_carries (ha : ∀ v, t.a v = v) (direction : Direction)
    (source destination : UInt8) (cycles : UInt64) (n : Nat) :
    Carries (fun _ => True) t t (moveBytes direction source destination cycles n : Action B Unit)
      (moveBytes direction source destination cycles n) := by
  induction n with
  | zero => exact .pure ()
  | succ n ih => exact (moveByte_carries ha direction source destination cycles).andThen fun _ => ih

/-- The accumulator counts the bytes, so it may not be changed. -/
theorem moveBlock_carries (ha : ∀ v, t.a v = v) (i : Instruction) (direction : Direction) :
    Carries P t t (moveBlock i direction : Action B Unit) (moveBlock i direction) := by
  refine .registers_bind fun c _ => ?_
  have hcount : (c.toRegisters.recast t).a = c.a := ha c.a
  rw [hcount]
  refine (read_carries _).andThen fun destination => ?_
  refine (read_carries _).andThen fun source => ?_
  refine Carries.andThen (changeRegisters_carries fun _ _ => rfl) fun _ => ?_
  refine (moveBytes_carries ha direction source destination _ _).andThen fun _ => ?_
  exact changeRegisters_carries fun _ _ => rfl

theorem branch_carries (i : Instruction) (taken : Bool) :
    Carries P t t (branch i taken : Action B Unit) (branch i taken) := by
  refine .registers_bind fun c _ => ?_
  refine operandByte_carries.andThen fun distance => .ite ?_ ?_
  · exact (charge_carries _).andThen fun _ => goTo_carries _
  · exact (charge_carries _).andThen fun _ => goTo_carries _

/-- An instruction takes one change to another if the functions of its effect do. -/
theorem execute_carries (i : Instruction) {c : Core} (hpage : c.toRegisters.SamePage t)
    (hi : i.effect.Carries t t' c.toRegisters) :
    Carries (· = c) t t' (execute i : Action B Unit) (execute i) := by
  unfold execute
  refine .registers_bind ?_
  rintro c rfl
  rw [Registers.directPenalty_recast hpage]
  have hc : ∀ now, now = c → now.toRegisters.SamePage t := fun _ h => h ▸ hpage
  generalize i.effect = e at hi ⊢
  -- One case for each effect. What it needs of `t` and `t'` is the hypothesis on the effect.
  cases e with
  | read size absorb =>
      refine (readOperand_carries i.mode _ hc).bind (readOperand_ensures i.mode _) fun p => ?_
      refine Carries.andThen (changeRegisters_carries ?_) fun _ => retire_carries i _ rfl
      rintro _ ⟨-, rfl⟩
      exact hi p.1
  | write size value =>
      obtain ⟨rfl, hvalue⟩ := hi
      refine (locate_carries i.mode hc).andThen fun place => ?_
      exact (writeData_carries _ _ hvalue).andThen fun _ => retire_carries i _ rfl
  | alter change =>
      obtain ⟨rfl, hmemory, haccumulator⟩ := hi
      refine (alterOperand_carries i.mode _ hpage hmemory haccumulator).andThen fun _ => ?_
      exact .ite (retire_carries i _ rfl) (retire_carries i _ rfl)
  | adjust change =>
      refine Carries.andThen (changeRegisters_carries ?_) fun _ => retire_carries i _ rfl
      rintro _ rfl
      exact hi
  | mask change =>
      obtain rfl := hi
      refine operandByte_carries.andThen fun bits => ?_
      refine Carries.andThen (changeRegisters_carries fun _ _ => rfl) fun _ => ?_
      exact retire_carries i _ rfl
  | push size value =>
      obtain ⟨rfl, hvalue⟩ := hi
      exact (push_carries hvalue).andThen fun _ => retire_carries i _ rfl
  | pull size absorb =>
      -- A pull moves the stack before the value is absorbed, so the registers are those of before
      -- but for the stack.
      have hpulled : Ensures (· = c) (pull (size.width c.status) : Action B UInt16)
          fun v now => (size.width c.status).Fits v ∧ c.Stacked c.toRegisters now := by
        refine ⟨?_⟩
        rintro m rfl
        exact (pull_stacked _).run m.core.at_self
      refine (pull_carries _).bind hpulled fun v => ?_
      refine Carries.andThen (changeRegisters_carries ?_) fun _ => retire_carries i _ rfl
      rintro _ ⟨-, s, hs⟩
      rw [hs.1]
      exact hi v s
  | pushOperand value =>
      obtain ⟨rfl, hvalue⟩ := hi
      refine (locate_carries i.mode hc).andThen fun place => ?_
      refine (readWordInBank_carries _).andThen fun v => ?_
      rw [hvalue]
      exact (pushWord_carries _).andThen fun _ => retire_carries i _ rfl
  | branch taken =>
      obtain rfl := hi
      exact branch_carries i _
  | branchLong =>
      obtain rfl := hi
      refine operandWord_carries.andThen fun distance => ?_
      exact (goTo_carries _).andThen fun _ => charge_carries _
  | jump reach =>
      obtain rfl := hi
      refine (locate_carries i.mode hc).andThen fun place => ?_
      exact (arrive_carries reach _).andThen fun _ => charge_carries _
  | call reach =>
      obtain rfl := hi
      refine (locate_carries i.mode hc).andThen fun place => ?_
      refine .optional (pushByte_carries _) ?_
      refine (pushWord_carries _).andThen fun _ => ?_
      exact (arrive_carries reach _).andThen fun _ => charge_carries _
  | finishCall reach =>
      obtain rfl := hi
      refine pullWord_carries.andThen fun offset => ?_
      cases reach with
      | near =>
          refine Carries.andThen (.pure _) fun bank => ?_
          exact (arrive_carries .near _).andThen fun _ => charge_carries _
      | far =>
          refine pullByte_carries.andThen fun bank => ?_
          exact (arrive_carries .far _).andThen fun _ => charge_carries _
  | finishInterrupt =>
      obtain rfl := hi
      refine pullByte_carries.andThen fun bits => ?_
      refine Carries.andThen (changeRegisters_carries fun _ _ => rfl) fun _ => ?_
      refine pullWord_carries.andThen fun offset => .ite ?_ ?_
      · exact (goTo_carries offset).andThen fun _ => charge_carries _
      · refine pullByte_carries.andThen fun bank => ?_
        exact (arrive_carries .far _).andThen fun _ => charge_carries _
  | interrupt source =>
      obtain rfl := hi
      exact enterInterrupt_carries source _
  | moveBlock direction =>
      obtain ⟨rfl, ha⟩ := hi
      exact moveBlock_carries ha i direction
  | wait =>
      obtain rfl := hi
      exact Carries.andThen (changeCore_carries fun _ => rfl) fun _ => retire_carries i _ rfl
  | stop =>
      obtain rfl := hi
      exact Carries.andThen (changeCore_carries fun _ => rfl) fun _ => retire_carries i _ rfl

end Action

/-! ## Operations -/

/-- Whether a change of the accumulator is out of sight at a width: the operand is the same, and so
    is the change when another operand takes its place. -/
structure Recasting.Unseen (t : Recasting) (w : Width) : Prop where
  operand : ∀ v, w.truncate (t.a v) = w.truncate v
  replaced : w = .byte → ∀ low v,
    t.a (joinBytes low (highByte v)) = joinBytes low (highByte (t.a v))

section

variable {r : Registers} (h : t.Unseen r.status.accumulatorWidth)

include h

namespace Registers

/-- An unseen change leaves the operand that is in the accumulator. -/
theorem accumulator_recast : (r.recast t).accumulator = r.accumulator :=
  h.operand r.a

/-- Setting the accumulator at the width leaves unseen what was unseen. -/
theorem setAccumulator_recast (v : UInt16) :
    (r.recast t).setAccumulator v = (r.setAccumulator v).recast t := by
  have hwidth : (r.recast t).status.accumulatorWidth = r.status.accumulatorWidth := rfl
  rw [setAccumulator, setAccumulator, hwidth]
  cases hw : r.status.accumulatorWidth with
  | byte =>
      show { r.recast t with a := joinBytes (lowByte v) (highByte (t.a r.a)) } =
        { r.recast t with a := t.a (joinBytes (lowByte v) (highByte r.a)) }
      rw [h.replaced hw]
  | word =>
      rw [hw] at h
      show { r.recast t with a := v } = { r.recast t with a := t.a v }
      rw [show t.a v = v from h.operand v]

end Registers

namespace Effect

theorem loadAccumulator_recast (w : Width) (v : UInt16) :
    loadAccumulator w v (r.recast t) = (loadAccumulator w v r).recast t :=
  Registers.setAccumulator_recast (r := { r with status := r.status.withResult w v }) h v

/-- A logical operation takes the operand from what is seen, and puts the result there. -/
theorem combine_recast (f : UInt16 → UInt16 → UInt16) (w : Width) (v : UInt16) :
    combine f w v (r.recast t) = (combine f w v r).recast t := by
  rw [combine, Registers.accumulator_recast h]
  exact loadAccumulator_recast h w _

/-- Sums and differences may change flags, as long as the width of the accumulator stays. -/
theorem calculate_recast {f : Status → Width → UInt16 → UInt16 → UInt16 × Status} (w : Width)
    (v : UInt16)
    (hf : ∀ a, (f r.status w a v).2.accumulatorWidth = r.status.accumulatorWidth) :
    calculate f w v (r.recast t) = (calculate f w v r).recast t := by
  have hflags : t.Unseen (f r.status w r.accumulator v).2.accumulatorWidth := (hf _).symm ▸ h
  rw [calculate, Registers.accumulator_recast h]
  exact Registers.setAccumulator_recast
    (r := { r with status := (f r.status w r.accumulator v).2 }) hflags _

theorem compare_recast (w : Width) (v : UInt16) :
    Effect.compare Registers.accumulator w v (r.recast t) =
      (Effect.compare Registers.accumulator w v r).recast t := by
  rw [Effect.compare, Registers.accumulator_recast h]
  rfl

theorem testBits_recast (immediate : Bool) (w : Width) (v : UInt16) :
    testBits immediate w v (r.recast t) = (testBits immediate w v r).recast t := by
  rw [testBits, Registers.accumulator_recast h]
  cases immediate with
  | true => rfl
  | false => rfl

/-- The bits that are set or cleared are those of the operand in the accumulator. -/
theorem changeBits_recast (f : UInt16 → UInt16 → UInt16) (w : Width) (v : UInt16) :
    changeBits f w v (r.recast t) = changeBits f w v r := by
  rw [changeBits, Registers.accumulator_recast h]
  rfl

/-- What alters an operand without looking at the registers alters the accumulator at its width. -/
theorem alter_carries {change : Width → UInt16 → Registers → UInt16 × Status}
    (hchange : ∀ w v, change w v (r.recast t) = change w v r)
    (hwidth : ∀ w v, (change w v r).2.accumulatorWidth = r.status.accumulatorWidth) :
    (Effect.alter change).Carries t t r := by
  have hflags : ∀ w v, t.Unseen (change w v r).2.accumulatorWidth :=
    fun w v => (hwidth w v).symm ▸ h
  refine ⟨rfl, hchange _, ?_⟩
  rw [Registers.altered, Registers.accumulator_recast h, hchange]
  exact Registers.setAccumulator_recast
    (r := { r with status := (change _ r.accumulator r).2 }) (hflags _ _) _

end Effect

end

/-- Operations that take the accumulator or the direct page register as a whole. -/
def Operation.wholesale : List Operation :=
  [.tax, .tay, .tcd, .tdc, .tcs, .tsc, .xba, .mvn, .mvp, .phd, .pld]

/-- All other operations carry on what cannot be seen of the accumulator, and any change of the
    direct page register. -/
theorem Instruction.effect_carries (i : Instruction) {r : Registers}
    (h : t.Unseen r.status.accumulatorWidth) (hi : i.operation ∉ Operation.wholesale) :
    i.effect.Carries t t r := by
  obtain ⟨operation, mode, baseCycles⟩ := i
  cases operation with
  | tax | tay | tcd | tdc | tcs | tsc | xba | mvn | mvp | phd | pld =>
      -- These take the whole accumulator, or the direct page register as a value.
      exact absurd (by simp [Operation.wholesale]) hi
  | adc | sbc => exact fun v => Effect.calculate_recast h _ v fun _ => rfl
  | and | ora | eor => exact Effect.combine_recast h _ _
  | lda => exact Effect.loadAccumulator_recast h _
  | pla => exact fun v s => Effect.loadAccumulator_recast (r := r.moveStack s) h _ v
  | txa | tya => exact Effect.loadAccumulator_recast h _ _
  | cmp => exact Effect.compare_recast h _
  | bit => exact Effect.testBits_recast h _ _
  | tsb | trb => exact Effect.alter_carries h (Effect.changeBits_recast h _) fun _ _ => rfl
  | asl | lsr | rol | ror | inc | dec =>
      exact Effect.alter_carries h (fun _ _ => rfl) fun _ _ => rfl
  | sta | pha => exact ⟨rfl, h.operand r.a⟩
  | stx | sty | stz | phx | phy | php | phb | phk => exact ⟨rfl, rfl⟩
  | pea | pei | per => exact ⟨rfl, fun _ => rfl⟩
  | cpx | cpy | ldx | ldy => exact fun _ => rfl
  | plx | ply | plp | plb => exact fun _ _ => rfl
  | _ => rfl

/-! ## Steps -/

namespace Machine

variable {B : Type} [Bus B] {m : Machine B}

omit [Bus B] in
theorem account_recast {start : UInt64} {o o' : Outcome B Unit}
    (h : o'.machine = o.machine.recast t) :
    (account start o').machine = (account start o).machine.recast t ∧
      (account start o').result = (account start o).result := by
  rw [machine_account, machine_account, result_account, result_account, h]
  exact ⟨rfl, rfl⟩

theorem serve_recast (m : Machine B) (source : Interrupt) :
    (serve (m.recast t) source).machine = (serve m source).machine.recast t := by
  have hrun := (Action.enterInterrupt_carries (t := t) (P := fun _ => True) source
    (m.core.acknowledge source).pc).run (m := { m with core := m.core.acknowledge source }) trivial
  show ((Action.enterInterrupt source ((m.core.recast t).acknowledge source).pc).run
    ⟨(m.core.recast t).acknowledge source, m.bus⟩).2 = _
  rw [Core.acknowledge_recast]
  exact congrArg Prod.snd hrun

/-- A step that carries out an instruction takes one change to another if the functions of its
    effect do. -/
theorem step_recast (h : m.core.decide m.irqLine = .instruction)
    (hpage : m.core.toRegisters.SamePage t)
    (he : m.fetched.effect.Carries t t' m.core.toRegisters) :
    (m.recast t).step.machine = m.step.machine.recast t' ∧
      (m.recast t).step.result = m.step.result := by
  have hrun := (Action.execute_carries m.fetched (c := m.core.wake) hpage he).run
    (m := ⟨m.core.wake, (Bus.read m.bus m.core.programAddress).2⟩) rfl
  have h' : (m.recast t).core.decide (m.recast t).irqLine = .instruction := h
  rw [step_eq_advance h, step_eq_advance h']
  refine account_recast ?_
  rw [machine_advance, machine_advance]
  exact congrArg Prod.snd hrun

/-- Any other step leaves a change as it is. -/
theorem step_recast_of_ne (h : m.core.decide m.irqLine ≠ .instruction) :
    (m.recast t).step.machine = m.step.machine.recast t ∧
      (m.recast t).step.result = m.step.result := by
  generalize hactivity : m.core.decide m.irqLine = activity at h
  have hactivity' : (m.recast t).core.decide (m.recast t).irqLine = activity := hactivity
  cases activity with
  | idle =>
      rw [step_idle hactivity, step_idle hactivity']
      exact ⟨rfl, rfl⟩
  | interrupt source =>
      rw [step_eq_serve hactivity, step_eq_serve hactivity']
      refine account_recast ?_
      exact serve_recast { m with core := m.core.wake } source
  | instruction => exact absurd rfl h

end Machine

end W65C816
