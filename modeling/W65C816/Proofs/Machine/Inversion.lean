import W65C816.Machine.Step
import W65C816.Proofs.Machine.Ensures

/-!
# What an instruction makes of the core

Most of what is to be said about instructions is about few of their effects. So what each kind of
effect can make of the core is said here once, on any bus; a property of all instructions is then a
case analysis that never opens `Action.execute`.

* `Effect.Yields` relates the registers an instruction starts with to those it ends with. The bytes
  that came from the bus are left open, and so is where pushes and pulls leave the stack.
* `Core.Beside` is everything else in the core except the cycles. Only `Effect.settle` changes it:
  a core that waits or stops goes to sleep.
* `Action.execute_yields` is the inversion, and `Machine.step_instruction` and
  `Machine.step_interrupt` are what follows from it for a step.
-/

namespace W65C816

/-! ## Registers on their way -/

namespace Registers

/-- The registers with the stack at another pointer. -/
def moveStack (r : Registers) (pointer : UInt16) : Registers :=
  { r with stack := r.stack.relocate pointer }

/-- The registers when the program goes on `n` bytes further. -/
def skip (r : Registers) (n : UInt16) : Registers :=
  { r with pc := r.pc + n }

/-- The registers when the program goes on at an address. -/
def arrive (r : Registers) : Reach → Address → Registers
  | .near, target => { r with pc := target.offset }
  | .far, target => { r with pbr := target.bank, pc := target.offset }

/-- The registers when the program goes on in the handler of an interrupt, which is in bank 0. -/
def interrupted (r : Registers) (pc : UInt16) : Registers :=
  { r with pbr := 0, pc, status := { r.status with irqDisable := true, decimal := false } }

/-- The registers after bytes of a block have been moved to a bank. -/
def moved (r : Registers) (destination : UInt8) (a x y : UInt16) : Registers :=
  { r with dbr := destination, a, x, y }

/-- The registers after the accumulator has been altered in place. -/
def altered (change : UInt16 → Registers → UInt16 × Status) (r : Registers) : Registers :=
  ({ r with status := (change r.accumulator r).2 } : Registers).setAccumulator
    (change r.accumulator r).1

/-- The registers after an operand has been altered in place, in memory or in the accumulator. -/
def Altered (change : UInt16 → Registers → UInt16 × Status) (r r' : Registers) : Prop :=
  (∃ v, r' = { r with status := (change v r).2 }) ∨
    r' = ({ r with status := (change r.accumulator r).2 } : Registers).setAccumulator
      (change r.accumulator r).1

end Registers

namespace Effect

/-- The registers that an instruction of `n` bytes can end with, by those it starts with. -/
def Yields (n : UInt16) (r r' : Registers) : Effect → Prop
  | read size absorb =>
      ∃ v, (size.width r.status).Fits v ∧ r' = (absorb (size.width r.status) v r).skip n
  | write _ _ => r' = r.skip n
  | alter change =>
      ∃ now, r.Altered (change (OperandSize.accumulator.width r.status)) now ∧ r' = now.skip n
  | adjust change => r' = (change r).skip n
  | mask change =>
      ∃ v, r' = ({ r with status := change r.status v } : Registers).narrowIndexes.skip n
  | push _ _ | pushOperand _ => ∃ s, r' = (r.moveStack s).skip n
  | pull size absorb =>
      ∃ s v, (size.width r.status).Fits v ∧
        r' = (absorb (size.width r.status) v (r.moveStack s)).skip n
  | branch _ | branchLong => ∃ pc, r' = { r with pc }
  | jump reach => ∃ target, r' = r.arrive reach target
  | call reach | finishCall reach => ∃ s target, r' = (r.moveStack s).arrive reach target
  | finishInterrupt =>
      ∃ s bits target, r' = (pullStatus bits (r.moveStack s)).arrive
        (if r.status.emulation then .near else .far) target
  | interrupt _ => ∃ s pc, r' = (r.moveStack s).interrupted pc
  | moveBlock _ => ∃ destination a x y, r' = (r.moved destination a x y).skip n
  | wait | stop => r' = r.skip n

/-- The core when it has been put to sleep, if the effect does that. -/
def settle (c : Core) : Effect → Core
  | wait => { c with waiting := true }
  | stop => { c with stopped := true }
  | _ => c

/-- Going to sleep is all that an effect does outside the registers. -/
theorem settle_eq (c : Core) (e : Effect) :
    ∃ waiting stopped, e.settle c = { c with waiting, stopped } := by
  cases e with
  | wait => exact ⟨true, c.stopped, rfl⟩
  | stop => exact ⟨c.waiting, true, rfl⟩
  | _ => exact ⟨c.waiting, c.stopped, rfl⟩

end Effect

namespace Core

/-- Two cores that are the same but for the registers and the count of cycles. -/
structure Beside (c c' : Core) : Prop where
  waiting : c'.waiting = c.waiting
  stopped : c'.stopped = c.stopped
  pins : c'.pins = c.pins
  nmiPending : c'.nmiPending = c.nmiPending
  abortPending : c'.abortPending = c.abortPending
  vectors : c'.vectors = c.vectors
  trace : c'.trace = c.trace
  paused : c'.panel.paused = c.panel.paused
  stepRequested : c'.panel.stepRequested = c.panel.stepRequested

/-- A core beside a given one, with given registers. -/
def At (c₀ : Core) (r : Registers) (c : Core) : Prop :=
  c.toRegisters = r ∧ c₀.Beside c

/-- A core beside a given one, with given registers but for where the stack is. -/
def Stacked (c₀ : Core) (r : Registers) (c : Core) : Prop :=
  ∃ s, c₀.At (r.moveStack s) c

theorem at_self (c : Core) : c.At c.toRegisters c :=
  ⟨rfl, ⟨rfl, rfl, rfl, rfl, rfl, rfl, rfl, rfl, rfl⟩⟩

/-- A change of the registers changes no more than what `At` names. -/
theorem At.mapRegisters {c₀ c : Core} {r : Registers} (h : c₀.At r c) (f : Registers → Registers) :
    c₀.At (f r) (c.mapRegisters f) := by
  obtain ⟨rfl, hb⟩ := h
  exact ⟨rfl, ⟨hb.waiting, hb.stopped, hb.pins, hb.nmiPending, hb.abortPending, hb.vectors,
    hb.trace, hb.paused, hb.stepRequested⟩⟩

theorem At.charge {c₀ c : Core} {r : Registers} (h : c₀.At r c) (n : UInt64) :
    c₀.At r (c.charge n) := by
  obtain ⟨hr, hb⟩ := h
  exact ⟨hr, ⟨hb.waiting, hb.stopped, hb.pins, hb.nmiPending, hb.abortPending, hb.vectors,
    hb.trace, hb.paused, hb.stepRequested⟩⟩

/-- What the panel shows is a copy of the count. -/
theorem At.publish {c₀ c : Core} {r : Registers} (h : c₀.At r c) : c₀.At r c.publish := by
  obtain ⟨hr, hb⟩ := h
  exact ⟨hr, ⟨hb.waiting, hb.stopped, hb.pins, hb.nmiPending, hb.abortPending, hb.vectors,
    hb.trace, hb.paused, hb.stepRequested⟩⟩

theorem At.stacked {c₀ c : Core} {r : Registers} (h : c₀.At r c) (s : UInt16) :
    c₀.Stacked r { c with stack := c.stack.relocate s } :=
  ⟨s, h.mapRegisters (Registers.moveStack · s)⟩

theorem stacked_relocate {c₀ : Core} {r : Registers} (c : Core) (v : UInt16)
    (h : c₀.Stacked r c) : c₀.Stacked r { c with stack := c.stack.relocate v } := by
  obtain ⟨s, h⟩ := h
  exact ⟨v, h.mapRegisters (Registers.moveStack · v)⟩

end Core

namespace Action

variable {B : Type} {c₀ : Core} {r : Registers}

/-! ## Parts of instructions -/

theorem registers_at :
    Ensures (c₀.At r) (registers : Action B Registers) fun now c => now = r ∧ c₀.At r c :=
  ⟨fun h => ⟨h.1, h⟩⟩

theorem changeRegisters_at (f : Registers → Registers) :
    Ensures (c₀.At r) (changeRegisters f : Action B Unit) fun _ => c₀.At (f r) :=
  ⟨fun h => h.mapRegisters f⟩

/-- Wherever the stack is, a change that leaves it alone can be made before it moves. -/
theorem changeRegisters_stacked {f : Registers → Registers}
    (hf : ∀ (r : Registers) s, f (r.moveStack s) = (f r).moveStack s) :
    Ensures (c₀.Stacked r) (changeRegisters f : Action B Unit) fun _ => c₀.Stacked (f r) := by
  refine ⟨?_⟩
  rintro m ⟨s, h⟩
  refine ⟨s, ?_⟩
  rw [← hf r s]
  exact h.mapRegisters f

theorem charge_at (n : UInt64) : Keeps (c₀.At r) (charge n : Action B Unit) :=
  ⟨fun h => h.charge n⟩

/-- An instruction ends with the program counter behind it. Its size depends on the flags that it
    began with. -/
theorem retire_at (i : Instruction) (r₀ : Registers) (penalty : UInt64) :
    Ensures (c₀.At r) (retire i r₀ penalty : Action B Unit)
      fun _ => c₀.At (r.skip (i.size r₀.status)) :=
  (charge_at _).bind fun _ => changeRegisters_at _

/-- A jump ends at its target, in the bank that it was in or in another. -/
theorem arrive_at (reach : Reach) (target : Address) :
    Ensures (c₀.At r) (arrive reach target : Action B Unit)
      fun _ => c₀.At (r.arrive reach target) := by
  cases reach with
  | near => exact changeRegisters_at fun r => r.arrive .near target
  | far => exact changeRegisters_at fun r => r.arrive .far target

/-- What holds for every place of the stack holds once something has been pushed or pulled. -/
theorem Ensures.stacked {α : Type} {p : Action B α} {Q : α → Core → Prop}
    (h : ∀ s, Ensures (c₀.At (r.moveStack s)) p Q) : Ensures (c₀.Stacked r) p Q := by
  refine ⟨?_⟩
  rintro m ⟨s, hs⟩
  exact (h s).run hs

variable [Bus B]

/-- Pushes leave open where the stack is, and nothing else about the core. -/
theorem pushByte_stacked (v : UInt8) :
    Ensures (c₀.At r) (pushByte v : Action B Unit) fun _ => c₀.Stacked r :=
  ⟨fun h => h.stacked _⟩

theorem pushWord_stacked (v : UInt16) :
    Ensures (c₀.At r) (pushWord v : Action B Unit) fun _ => c₀.Stacked r := by
  refine ⟨?_⟩
  intro m h
  exact Core.stacked_relocate { m.core with stack := m.core.stack.lowered } _ (h.stacked _)

theorem push_stacked (w : Width) (v : UInt16) :
    Ensures (c₀.At r) (push w v : Action B Unit) fun _ => c₀.Stacked r := by
  cases w with
  | byte => exact pushByte_stacked (lowByte v)
  | word => exact pushWord_stacked v

/-- Pulls leave open where the stack is. What they find is on the bus, about which nothing is known
    here. -/
theorem pullByte_stacked :
    Ensures (c₀.At r) (pullByte : Action B UInt8) fun _ => c₀.Stacked r :=
  ⟨fun h => h.stacked _⟩

theorem pullWord_stacked :
    Ensures (c₀.At r) (pullWord : Action B UInt16) fun _ => c₀.Stacked r := by
  refine ⟨?_⟩
  intro m h
  exact Core.stacked_relocate { m.core with stack := m.core.stack.raised 1 } _ (h.stacked _)

/-- All that is known of a value that is pulled is its width. -/
theorem pull_stacked (w : Width) :
    Ensures (c₀.At r) (pull w : Action B UInt16) fun v c => w.Fits v ∧ c₀.Stacked r c := by
  cases w with
  | byte => exact ⟨fun h => ⟨Width.fits_toUInt16 .byte _, h.stacked _⟩⟩
  | word => exact ⟨fun h => ⟨Width.fits_word _, pullWord_stacked.run h⟩⟩

/-! ## Instructions -/

/-- In memory or in the accumulator, an operand of some value is altered. -/
theorem alterOperand_at (mode : Mode) (w : Width)
    (change : UInt16 → Registers → UInt16 × Status) :
    Ensures (c₀.At r) (alterOperand mode w change : Action B Unit)
      fun _ c => ∃ now, r.Altered change now ∧ c₀.At now c := by
  refine .ite ?_ ?_
  · exact (changeRegisters_at _).imp fun _ _ h => ⟨_, .inr rfl, h⟩
  · refine (locate_keeps mode).bind fun place => ?_
    refine (readData_ensures place.address mode w).bind fun v => .assuming fun _ => ?_
    refine registers_at.bind fun now => .assuming ?_
    rintro rfl
    refine (changeRegisters_at _).bind fun _ => ?_
    exact (writeData_keeps place.address mode w _).imp fun _ _ h => ⟨_, .inl ⟨v, rfl⟩, h⟩

/-- An interrupt is entered at some vector, after a frame of some length. -/
theorem enterInterrupt_at (source : Interrupt) (returnTo : UInt16) :
    Ensures (c₀.At r) (enterInterrupt source returnTo : Action B Unit)
      fun _ c => ∃ s pc, c₀.At ((r.moveStack s).interrupted pc) c := by
  refine core_keeps.bind fun c => ?_
  -- What comes after the return address is the same in both modes, wherever the stack has got to.
  have hrest : Ensures (c₀.Stacked r) (do
      pushByte (savedStatus c.status source)
      changeRegisters fun r =>
        { r with pbr := 0, status := { r.status with irqDisable := true, decimal := false } }
      let handler ← readWordInBank ⟨0, c.vectors.location source c.status.emulation⟩
      goTo handler
      charge (if c.status.emulation then 7 else 8) : Action B Unit)
      fun _ c => ∃ s pc, c₀.At ((r.moveStack s).interrupted pc) c := by
    refine (pushByte_keeps Core.stacked_relocate _).bind fun _ => .stacked fun s => ?_
    refine (changeRegisters_at _).bind fun _ => ?_
    refine (readWordInBank_keeps _).bind fun pc => ?_
    refine (changeRegisters_at _).bind fun _ => ?_
    exact (charge_at _).imp fun _ _ h => ⟨s, pc, h⟩
  refine .ite ?_ ?_
  · refine (pushByte_stacked _).bind fun _ => ?_
    exact (pushWord_keeps Core.stacked_relocate _).bind fun _ => hrest
  · exact (pushWord_stacked _).bind fun _ => hrest

/-- However many bytes are moved, nothing else changes. -/
theorem moveBytes_at (direction : Direction) (source destination : UInt8) (cycles : UInt64)
    (bank : UInt8) (n : Nat) :
    Keeps (fun c => ∃ a x y, c₀.At (r.moved bank a x y) c)
      (moveBytes direction source destination cycles n : Action B Unit) := by
  induction n with
  | zero => exact .pure fun _ h => h
  | succ n ih =>
      refine Ensures.bind (Q := fun _ c => ∃ a x y, c₀.At (r.moved bank a x y) c) ?_ fun _ => ih
      refine registers_keeps.bind fun now => ?_
      refine (read_keeps _).bind fun v => ?_
      refine (write_keeps _ v).bind fun _ => ⟨?_⟩
      rintro m ⟨a, x, y, h⟩
      exact ⟨_, _, _, (h.mapRegisters _).charge cycles⟩

/-- Every instruction ends with registers that its effect yields, and leaves the rest of the core
    as the effect settles it. -/
theorem execute_yields (i : Instruction) (c₀ : Core) :
    Ensures (c₀.At c₀.toRegisters) (execute i : Action B Unit) fun _ c =>
      ∃ r, i.effect.Yields (i.size c₀.status) c₀.toRegisters r ∧ (i.effect.settle c₀).At r c := by
  unfold execute
  refine registers_at.bind fun r => .assuming ?_
  rintro rfl
  generalize i.effect = e
  -- Each case runs through the actions of its effect and carries along what the registers are.
  -- Values from the bus come in as they are, with no more known of them than their width.
  cases e with
  | read size absorb =>
      refine (readOperand_ensures i.mode _).bind fun p => .assuming fun hp => ?_
      refine (changeRegisters_at _).bind fun _ => ?_
      exact (retire_at i _ _).imp fun _ _ h => ⟨_, ⟨p.1, hp, rfl⟩, h⟩
  | write size value =>
      refine (locate_keeps i.mode).bind fun place => ?_
      refine (writeData_keeps _ _ _ _).bind fun _ => ?_
      exact (retire_at i _ _).imp fun _ _ h => ⟨_, rfl, h⟩
  | alter change =>
      refine (alterOperand_at i.mode _ _).bind fun _ => ⟨?_⟩
      rintro m ⟨now, hnow, h⟩
      have hretire : ∀ penalty,
          Ensures (c₀.At now) (retire i c₀.toRegisters penalty : Action B Unit) fun _ c =>
            ∃ r, (Effect.alter change).Yields (i.size c₀.status) c₀.toRegisters r ∧ c₀.At r c :=
        fun penalty => (retire_at i _ penalty).imp fun _ _ h => ⟨_, ⟨now, hnow, rfl⟩, h⟩
      exact (Ensures.ite (hretire _) (hretire _)).run h
  | adjust change =>
      refine (changeRegisters_at change).bind fun _ => ?_
      exact (retire_at i _ _).imp fun _ _ h => ⟨_, rfl, h⟩
  | mask change =>
      refine operandByte_keeps.bind fun bits => ?_
      refine (changeRegisters_at _).bind fun _ => ?_
      exact (retire_at i _ _).imp fun _ _ h => ⟨_, ⟨bits, rfl⟩, h⟩
  | push size value =>
      refine (push_stacked _ _).bind fun _ => .stacked fun s => ?_
      exact (retire_at i _ _).imp fun _ _ h => ⟨_, ⟨s, rfl⟩, h⟩
  | pull size absorb =>
      refine (pull_stacked _).bind fun v => .assuming fun hv => .stacked fun s => ?_
      refine (changeRegisters_at _).bind fun _ => ?_
      exact (retire_at i _ _).imp fun _ _ h => ⟨_, ⟨s, v, hv, rfl⟩, h⟩
  | pushOperand value =>
      refine (locate_keeps i.mode).bind fun place => ?_
      refine (readWordInBank_keeps _).bind fun v => ?_
      refine (pushWord_stacked _).bind fun _ => .stacked fun s => ?_
      exact (retire_at i _ _).imp fun _ _ h => ⟨_, ⟨s, rfl⟩, h⟩
  | branch taken =>
      refine registers_at.bind fun _ => .assuming fun _ => ?_
      refine operandByte_keeps.bind fun distance => .ite ?_ ?_
      · refine (charge_at _).bind fun _ => ?_
        exact (changeRegisters_at _).imp fun _ _ h => ⟨_, ⟨_, rfl⟩, h⟩
      · refine (charge_at _).bind fun _ => ?_
        exact (changeRegisters_at _).imp fun _ _ h => ⟨_, ⟨_, rfl⟩, h⟩
  | branchLong =>
      refine operandWord_keeps.bind fun distance => ?_
      refine (changeRegisters_at _).bind fun _ => ?_
      exact (charge_at _).imp fun _ _ h => ⟨_, ⟨_, rfl⟩, h⟩
  | jump reach =>
      refine (locate_keeps i.mode).bind fun place => ?_
      refine (arrive_at reach _).bind fun _ => ?_
      exact (charge_at _).imp fun _ _ h => ⟨_, ⟨_, rfl⟩, h⟩
  | call reach =>
      refine (locate_keeps i.mode).bind fun place => ?_
      -- The bank may be pushed or not. What follows is the same, and starts with a stack that has
      -- moved.
      have hrest : Ensures (c₀.Stacked c₀.toRegisters) (do
          arrive reach place.address
          charge i.baseCycles.toUInt64 : Action B Unit) fun _ c =>
            ∃ r, (Effect.call reach).Yields (i.size c₀.status) c₀.toRegisters r ∧ c₀.At r c := by
        refine .stacked fun s => ?_
        refine (arrive_at reach _).bind fun _ => ?_
        exact (charge_at _).imp fun _ _ h => ⟨_, ⟨s, _, rfl⟩, h⟩
      refine .ite ?_ ?_
      · refine (pushByte_stacked _).bind fun _ => ?_
        exact (pushWord_keeps Core.stacked_relocate _).bind fun _ => hrest
      · exact (pushWord_stacked _).bind fun _ => hrest
  | finishCall reach =>
      refine pullWord_stacked.bind fun offset => ?_
      cases reach with
      | near =>
          refine Ensures.bind (Q := fun _ => c₀.Stacked c₀.toRegisters) (.pure fun _ h => h) ?_
          intro bank
          refine .stacked fun s => ?_
          refine (arrive_at .near _).bind fun _ => ?_
          exact (charge_at _).imp fun _ _ h => ⟨_, ⟨s, _, rfl⟩, h⟩
      | far =>
          refine (pullByte_keeps Core.stacked_relocate).bind fun bank => .stacked fun s => ?_
          refine (arrive_at .far _).bind fun _ => ?_
          exact (charge_at _).imp fun _ _ h => ⟨_, ⟨s, _, rfl⟩, h⟩
  | finishInterrupt =>
      -- The flags come between two pulls. They do not depend on the stack, so they may come first.
      refine pullByte_stacked.bind fun bits => ?_
      refine (changeRegisters_stacked fun _ _ => rfl).bind fun _ => ?_
      refine (pullWord_keeps Core.stacked_relocate).bind fun offset => ?_
      by_cases he : c₀.status.emulation = true
      · rw [if_pos he]
        refine .stacked fun s => ?_
        refine (arrive_at .near ⟨0, offset⟩).bind fun _ => ?_
        refine (charge_at _).imp fun _ _ h => ⟨_, ⟨s, bits, ⟨0, offset⟩, ?_⟩, h⟩
        rw [if_pos he]
        rfl
      · rw [if_neg he]
        refine (pullByte_keeps Core.stacked_relocate).bind fun bank => .stacked fun s => ?_
        refine (arrive_at .far _).bind fun _ => ?_
        refine (charge_at _).imp fun _ _ h => ⟨_, ⟨s, bits, ⟨bank, offset⟩, ?_⟩, h⟩
        rw [if_neg he]
        rfl
  | interrupt source =>
      refine (enterInterrupt_at source _).imp ?_
      rintro _ c ⟨s, pc, h⟩
      exact ⟨_, ⟨s, pc, rfl⟩, h⟩
  | moveBlock direction =>
      refine registers_at.bind fun r => .assuming ?_
      rintro rfl
      refine (read_keeps _).bind fun destination => ?_
      refine (read_keeps _).bind fun source => ?_
      -- The loop leaves A, X and Y open, and so must what it starts from.
      have hbank : Ensures (c₀.At c₀.toRegisters)
          (changeRegisters fun r => { r with dbr := destination } : Action B Unit)
          fun _ c => ∃ a x y, c₀.At (c₀.toRegisters.moved destination a x y) c :=
        (changeRegisters_at _).imp fun _ _ h => ⟨_, _, _, h⟩
      refine hbank.bind fun _ => ?_
      refine (moveBytes_at direction source destination _ destination _).bind fun _ => ⟨?_⟩
      rintro m ⟨a, x, y, h⟩
      exact ⟨_, ⟨destination, a, x, y, rfl⟩, h.mapRegisters (Registers.skip · _)⟩
  | wait =>
      refine Ensures.bind (Q := fun _ => Core.At { c₀ with waiting := true } c₀.toRegisters) ?_ ?_
      · refine changeCore_ensures ?_
        rintro c ⟨hr, hb⟩
        exact ⟨hr, { hb with waiting := rfl }⟩
      · exact fun _ => (retire_at i _ _).imp fun _ _ h => ⟨_, rfl, h⟩
  | stop =>
      refine Ensures.bind (Q := fun _ => Core.At { c₀ with stopped := true } c₀.toRegisters) ?_ ?_
      · refine changeCore_ensures ?_
        rintro c ⟨hr, hb⟩
        exact ⟨hr, { hb with stopped := rfl }⟩
      · exact fun _ => (retire_at i _ _).imp fun _ _ h => ⟨_, rfl, h⟩

end Action

/-! ## Steps -/

/-- An interrupt is served when its edge is latched, and a request when it is not disabled. -/
theorem Core.decide_interrupt {c : Core} {irqLine : Bool} {source : Interrupt}
    (h : c.decide irqLine = .interrupt source) :
    (source = .abort ∧ c.abortPending = true) ∨ (source = .nmi ∧ c.nmiPending = true) ∨
      (source = .irq ∧ c.status.irqDisable = false) := by
  unfold decide at h
  split at h
  · exact nomatch h
  split at h
  · exact nomatch h
  split at h
  · rename_i habort
    obtain rfl := Activity.interrupt.inj h
    exact .inl ⟨rfl, habort⟩
  split at h
  · rename_i hnmi
    obtain rfl := Activity.interrupt.inj h
    exact .inr (.inl ⟨rfl, hnmi⟩)
  split at h
  · rename_i hirq
    obtain rfl := Activity.interrupt.inj h
    exact .inr (.inr ⟨rfl, by simpa using (Bool.and_eq_true_iff.mp hirq).2⟩)
  · exact nomatch h

namespace Machine

variable {B : Type} [Bus B] {m : Machine B}

/-- The instruction that the bus gives at the program address. -/
def fetched (m : Machine B) : Instruction :=
  Instruction.ofOpcode (Bus.read m.bus m.core.programAddress).1

/-- A step that carries out an instruction wakes the core first. -/
theorem step_eq_advance (h : m.core.decide m.irqLine = .instruction) :
    m.step = account m.core.cycles (advance { m with core := m.core.wake }) := by
  rw [step, h]

theorem step_eq_serve {source : Interrupt} (h : m.core.decide m.irqLine = .interrupt source) :
    m.step = account m.core.cycles (serve { m with core := m.core.wake } source) := by
  rw [step, h]

omit [Bus B] in
/-- Counting the cycles of a step publishes them on the panel. -/
theorem machine_account (start : UInt64) (o : Outcome B Unit) :
    (account start o).machine = { o.machine with core := o.machine.core.publish } :=
  rfl

omit [Bus B] in
/-- The result of a step is what the count has grown by, as a difference of words. -/
theorem result_account (start : UInt64) (o : Outcome B Unit) :
    (account start o).result = o.machine.core.cycles - start :=
  rfl

/-- A core that is awake fetches the opcode and carries out the instruction. -/
theorem machine_advance (m : Machine B) :
    (advance { m with core := m.core.wake }).machine = ((Action.execute m.fetched).run
      ⟨m.core.wake, (Bus.read m.bus m.core.programAddress).2⟩).2 := by
  rw [advance_eq]
  rfl

/-- A step that carries out an instruction ends with registers that its effect yields. It wakes the
    core before. -/
theorem step_instruction (h : m.core.decide m.irqLine = .instruction) :
    ∃ r, m.fetched.effect.Yields (m.fetched.size m.core.status) m.core.toRegisters r ∧
      (m.fetched.effect.settle m.core.wake).At r m.step.machine.core := by
  obtain ⟨r, hr, hc⟩ := (Action.execute_yields m.fetched m.core.wake).run
    (m := ⟨m.core.wake, (Bus.read m.bus m.core.programAddress).2⟩) m.core.wake.at_self
  refine ⟨r, hr, ?_⟩
  rw [step_eq_advance h, machine_account, machine_advance]
  exact hc.publish

/-- A step that serves an interrupt ends in its handler. It wakes the core and forgets the edge
    before. -/
theorem step_interrupt {source : Interrupt} (h : m.core.decide m.irqLine = .interrupt source) :
    ∃ s pc, (m.core.wake.acknowledge source).At ((m.core.toRegisters.moveStack s).interrupted pc)
      m.step.machine.core := by
  have hbefore : (m.core.wake.acknowledge source).At m.core.toRegisters
      (m.core.wake.acknowledge source) := by
    cases source with
    | abort | nmi | irq | brk | cop => exact Core.at_self _
  obtain ⟨s, pc, hc⟩ := (Action.enterInterrupt_at (B := B) source
    (m.core.wake.acknowledge source).pc).run
      (m := { m with core := m.core.wake.acknowledge source }) hbefore
  refine ⟨s, pc, ?_⟩
  rw [step_eq_serve h, machine_account]
  exact hc.publish

/-- A step that does nothing leaves the machine as it was. -/
theorem step_idle (h : m.core.decide m.irqLine = .idle) : m.step = ⟨0, m, []⟩ := by
  rw [step, h]

end Machine

end W65C816
