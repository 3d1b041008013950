import W65C816.Machine.Console
import W65C816.Memory
import W65C816.Proofs.Machine.Ensures
import W65C816.Proofs.Machine.Sound

/-!
# Reachable machines are sound

A machine is *reachable* if it comes from a start by commands, with anything happening to its bus in
between. Its registers are then sound, on every bus.

* `Action.execute_sound` goes through all effects. While an instruction gathers its operands, the
  flags stay as they were when it began: `Core.Steady`.
* `Machine.step_sound`, `Machine.run_sound` and `Machine.perform_sound` lift this to steps, to runs
  by the recursion of `Machine.runTo`, and to every command.
* `reachable_sound` is the induction over how a machine was reached.
-/

namespace W65C816

namespace Core

/-- The registers of the core are sound. -/
abbrev Sound (c : Core) : Prop :=
  c.toRegisters.Sound

/-- The registers are sound and the flags are the given ones. -/
def Steady (s : Status) (c : Core) : Prop :=
  c.Sound ∧ c.status = s

/-- Pushes and pulls move the stack by `relocate`, which keeps it on its page. -/
theorem sound_relocate (c : Core) (v : UInt16) (h : c.Sound) :
    Sound { c with stack := c.stack.relocate v } :=
  Registers.Sound.relocate h v

theorem steady_relocate {s : Status} (c : Core) (v : UInt16) (h : c.Steady s) :
    Steady s { c with stack := c.stack.relocate v } :=
  ⟨c.sound_relocate v h.1, h.2⟩

end Core

namespace Action

variable {B : Type}

/-! ## Parts of instructions -/

/-- Flags that are looked up stay what they are until the instruction sets them, so the width that
    an operand is read at is still the width of the register. -/
theorem registers_steady :
    Ensures Core.Sound (registers : Action B Registers) fun r => Core.Steady r.status := by
  refine registers_ensures.imp ?_
  rintro r c ⟨rfl, h⟩
  exact ⟨h, rfl⟩

/-- A change to the registers keeps the core sound if it keeps registers sound, whatever they are.
    -/
theorem changeRegisters_sound {f : Registers → Registers}
    (hf : ∀ r : Registers, r.Sound → (f r).Sound) :
    Keeps Core.Sound (changeRegisters f : Action B Unit) :=
  changeRegisters_ensures fun c => hf c.toRegisters

theorem goTo_sound (pc : UInt16) : Keeps Core.Sound (goTo pc : Action B Unit) :=
  changeRegisters_sound fun _ h => h.frame rfl rfl rfl rfl

theorem charge_sound (n : UInt64) : Keeps Core.Sound (charge n : Action B Unit) :=
  changeCore_ensures fun _ h => h

theorem retire_sound (i : Instruction) (r : Registers) (penalty : UInt64) :
    Keeps Core.Sound (retire i r penalty : Action B Unit) :=
  (charge_sound _).bind fun _ => changeRegisters_sound fun _ h => h.frame rfl rfl rfl rfl

theorem arrive_sound (reach : Reach) (target : Address) :
    Keeps Core.Sound (arrive reach target : Action B Unit) := by
  cases reach with
  | near => exact goTo_sound _
  | far => exact changeRegisters_sound fun _ h => h.frame rfl rfl rfl rfl

/-- An operand is absorbed at the width that the flags gave it. -/
theorem absorb_sound {size : OperandSize} {absorb : Width → UInt16 → Registers → Registers}
    (habsorb : ∀ (r : Registers) v, r.Sound → (size.width r.status).Fits v →
      (absorb (size.width r.status) v r).Sound) {s : Status} {v : UInt16}
    (hv : (size.width s).Fits v) :
    Ensures (Core.Steady s) (changeRegisters (absorb (size.width s) v) : Action B Unit)
      fun _ => Core.Sound := by
  refine changeRegisters_ensures ?_
  rintro c ⟨h, rfl⟩
  exact habsorb c.toRegisters v h hv

variable [Bus B]

/-- An operand that is altered goes back to where it came from, and flags of the same widths are
    set. -/
theorem alterOperand_sound (mode : Mode) (w : Width)
    {change : UInt16 → Registers → UInt16 × Status}
    (hchange : ∀ v (r : Registers), r.status.SameWidths (change v r).2) :
    Keeps Core.Sound (alterOperand mode w change : Action B Unit) := by
  refine .ite ?_ ?_
  · exact changeRegisters_sound fun r h =>
      (h.setStatus (hchange r.accumulator r)).setAccumulator _
  · refine (locate_keeps mode).bind fun place => ?_
    refine (readData_ensures place.address mode w).bind fun v => .assuming fun _ => ?_
    refine registers_ensures.bind fun r => ?_
    have hset : Ensures (fun c => c.toRegisters = r ∧ c.Sound)
        (changeRegisters fun now => { now with status := (change v r).2 } : Action B Unit)
        fun _ => Core.Sound := by
      refine changeRegisters_ensures ?_
      rintro c ⟨rfl, h⟩
      exact h.setStatus (hchange v c.toRegisters)
    exact hset.bind fun _ => writeData_keeps place.address mode w _

/-- Entering an interrupt pushes, masks further ones and leaves decimal mode. No width changes. -/
theorem enterInterrupt_sound (source : Interrupt) (returnTo : UInt16) :
    Keeps Core.Sound (enterInterrupt source returnTo : Action B Unit) := by
  refine core_keeps.bind fun c => ?_
  refine .optional (pushByte_keeps Core.sound_relocate _) ?_
  refine (pushWord_keeps Core.sound_relocate _).bind fun _ => ?_
  refine (pushByte_keeps Core.sound_relocate _).bind fun _ => ?_
  refine (changeRegisters_sound ?_).bind fun _ => ?_
  · intro r h
    have hflags := h.setStatus (s := { r.status with irqDisable := true, decimal := false })
      ⟨rfl, rfl, rfl⟩
    exact hflags.frame rfl rfl rfl rfl
  · refine (readWordInBank_keeps _).bind fun handler => ?_
    exact (goTo_sound handler).bind fun _ => charge_sound _

/-- The index registers of a block move wrap at their width at every byte. -/
theorem moveByte_sound (direction : Direction) (source destination : UInt8) (cycles : UInt64) :
    Keeps Core.Sound (moveByte direction source destination cycles : Action B Unit) := by
  refine registers_keeps.bind fun r => ?_
  refine (read_keeps _).bind fun v => ?_
  refine (write_keeps _ v).bind fun _ => ?_
  refine (changeRegisters_sound ?_).bind fun _ => charge_sound cycles
  intro r h
  have hx := h.setX (Width.fits_truncate r.status.indexWidth (direction.next r.x))
  have hy := hx.setY (Width.fits_truncate r.status.indexWidth (direction.next r.y))
  exact hy.frame rfl rfl rfl rfl

/-- By induction on the bytes that are still to be moved. -/
theorem moveBytes_sound (direction : Direction) (source destination : UInt8) (cycles : UInt64)
    (n : Nat) :
    Keeps Core.Sound (moveBytes direction source destination cycles n : Action B Unit) := by
  induction n with
  | zero => exact .pure fun _ h => h
  | succ n ih => exact (moveByte_sound direction source destination cycles).bind fun _ => ih

/-- A block move counts the accumulator down to `0xFFFF`, which is a value like any other. -/
theorem moveBlock_sound (i : Instruction) (direction : Direction) :
    Keeps Core.Sound (moveBlock i direction : Action B Unit) := by
  refine registers_keeps.bind fun r => ?_
  refine (read_keeps _).bind fun destination => ?_
  refine (read_keeps _).bind fun source => ?_
  refine (changeRegisters_sound ?_).bind fun _ => ?_
  · exact fun _ h => h.frame rfl rfl rfl rfl
  · refine (moveBytes_sound direction source destination _ _).bind fun _ => ?_
    exact changeRegisters_sound fun _ h => h.frame rfl rfl rfl rfl

theorem branch_sound (i : Instruction) (taken : Bool) :
    Keeps Core.Sound (branch i taken : Action B Unit) := by
  refine registers_keeps.bind fun r => ?_
  refine operandByte_keeps.bind fun distance => .ite ?_ ?_
  · exact (charge_sound _).bind fun _ => goTo_sound _
  · exact (charge_sound _).bind fun _ => goTo_sound _

/-! ## Instructions -/

/-- Every instruction keeps the registers sound. -/
theorem execute_sound (i : Instruction) : Keeps Core.Sound (execute i : Action B Unit) := by
  have hi := i.effect_respects
  unfold execute
  -- From here on, the effect is any that respects the widths.
  generalize i.effect = e at hi ⊢
  cases e with
  | read size absorb =>
      -- What is read fits the width that the flags give it. The flags have to be known to be the
      -- same when it is absorbed.
      refine registers_steady.bind fun r => ?_
      refine (readOperand_ensures i.mode _).bind fun p => .assuming fun hp => ?_
      exact (absorb_sound hi hp).bind fun _ => retire_sound i r _
  | write size value =>
      refine registers_keeps.bind fun r => ?_
      refine (locate_keeps i.mode).bind fun place => ?_
      exact (writeData_keeps _ _ _ _).bind fun _ => retire_sound i r _
  | alter change =>
      refine registers_keeps.bind fun r => ?_
      refine (alterOperand_sound i.mode _ (hi _)).bind fun _ => ?_
      exact .ite (retire_sound i r _) (retire_sound i r _)
  | adjust change =>
      refine registers_keeps.bind fun r => ?_
      exact (changeRegisters_sound hi).bind fun _ => retire_sound i r _
  | mask change =>
      refine registers_keeps.bind fun r => ?_
      refine operandByte_keeps.bind fun bits => ?_
      refine (changeRegisters_sound ?_).bind fun _ => retire_sound i r _
      exact fun r h => Effect.narrowIndexes_sound h (hi r.status bits)
  | push size value =>
      refine registers_keeps.bind fun r => ?_
      exact (push_keeps Core.sound_relocate _ _).bind fun _ => retire_sound i r _
  | pull size absorb =>
      refine registers_steady.bind fun r => ?_
      refine (pull_ensures Core.steady_relocate _).bind fun v => .assuming fun hv => ?_
      exact (absorb_sound hi hv).bind fun _ => retire_sound i r _
  | pushOperand value =>
      refine registers_keeps.bind fun r => ?_
      refine (locate_keeps i.mode).bind fun place => ?_
      refine (readWordInBank_keeps _).bind fun v => ?_
      exact (pushWord_keeps Core.sound_relocate _).bind fun _ => retire_sound i r _
  | branch taken => exact registers_keeps.bind fun r => branch_sound i _
  | branchLong =>
      refine registers_keeps.bind fun r => ?_
      refine operandWord_keeps.bind fun distance => ?_
      exact (goTo_sound _).bind fun _ => charge_sound _
  | jump reach =>
      refine registers_keeps.bind fun r => ?_
      refine (locate_keeps i.mode).bind fun place => ?_
      exact (arrive_sound reach _).bind fun _ => charge_sound _
  | call reach =>
      refine registers_keeps.bind fun r => ?_
      refine (locate_keeps i.mode).bind fun place => ?_
      refine .optional (pushByte_keeps Core.sound_relocate r.pbr) ?_
      refine (pushWord_keeps Core.sound_relocate _).bind fun _ => ?_
      exact (arrive_sound reach _).bind fun _ => charge_sound _
  | finishCall reach =>
      refine registers_keeps.bind fun r => ?_
      refine (pullWord_keeps Core.sound_relocate).bind fun offset => ?_
      cases reach with
      | near =>
          refine Ensures.bind (Q := fun _ => Core.Sound) (.pure fun _ h => h) fun bank => ?_
          exact (arrive_sound .near _).bind fun _ => charge_sound _
      | far =>
          refine (pullByte_keeps Core.sound_relocate).bind fun bank => ?_
          exact (arrive_sound .far _).bind fun _ => charge_sound _
  | finishInterrupt =>
      refine registers_keeps.bind fun r => ?_
      refine (pullByte_keeps Core.sound_relocate).bind fun bits => ?_
      refine (changeRegisters_sound fun r h => Effect.pullStatus_sound h bits).bind fun _ => ?_
      refine (pullWord_keeps Core.sound_relocate).bind fun offset => .ite ?_ ?_
      · exact (goTo_sound offset).bind fun _ => charge_sound _
      · refine (pullByte_keeps Core.sound_relocate).bind fun bank => ?_
        exact (arrive_sound .far _).bind fun _ => charge_sound _
  | interrupt source => exact registers_keeps.bind fun r => enterInterrupt_sound source _
  | moveBlock direction => exact registers_keeps.bind fun r => moveBlock_sound i direction
  | wait =>
      refine registers_keeps.bind fun r => ?_
      refine (changeCore_ensures ?_).bind fun _ => retire_sound i r 0
      exact fun _ h => h
  | stop =>
      refine registers_keeps.bind fun r => ?_
      refine (changeCore_ensures ?_).bind fun _ => retire_sound i r 0
      exact fun _ h => h

end Action

namespace Machine

variable {B : Type} [Bus B] {m : Machine B}

/-! ## Steps -/

theorem reset_sound (m : Machine B) : m.reset.machine.core.Sound :=
  (Registers.reset_sound m.core.toRegisters).frame rfl rfl rfl rfl

/-- An interrupt that is served is entered from the core that has been told of it. -/
theorem serve_sound (h : m.core.Sound) (source : Interrupt) :
    (m.serve source).machine.core.Sound := by
  have hbefore : (m.core.acknowledge source).Sound := by
    cases source with
    | abort | nmi | irq | brk | cop => exact h
  have henter := Action.enterInterrupt_sound (B := B) source (m.core.acknowledge source).pc
  exact henter.run (m := { m with core := m.core.acknowledge source }) hbefore

/-- The opcode may be any byte, so all instructions have to keep the registers sound. -/
theorem advance_sound (h : m.core.Sound) : m.advance.machine.core.Sound := by
  have hfetch := (Action.read_keeps (P := Core.Sound) m.core.programAddress).run h
  rw [advance_eq]
  exact (Action.execute_sound _).run hfetch

/-- A step does one of three things: nothing, an interrupt or an instruction. -/
theorem step_sound (h : m.core.Sound) : m.step.machine.core.Sound := by
  rw [step]
  cases m.core.decide m.irqLine with
  | idle => exact h
  | interrupt source => exact serve_sound (m := { m with core := m.core.wake }) h source
  | instruction => exact advance_sound (m := { m with core := m.core.wake }) h

/-! ## Runs -/

/-- One round of a run. -/
theorem round_sound (h : m.core.Sound) :
    (step (if m.core.panel.paused then takeRequest m else m)).machine.core.Sound := by
  by_cases hpaused : m.core.panel.paused = true
  · rw [if_pos hpaused]
    exact step_sound (m := takeRequest m) h
  · rw [if_neg hpaused]
    exact step_sound h

theorem runTo_sound (last : UInt64) (h : m.core.Sound) (events : List Event) :
    (runTo last m events).1.core.Sound := by
  fun_induction runTo last m events with
  | case1 => exact h
  | case2 =>
      rename_i ih
      exact ih (round_sound h)
  | case3 => exact round_sound h
  | case4 => exact h

/-- A run goes on until a count of cycles, and this may be far off. -/
theorem run_sound (h : m.core.Sound) (budget : UInt64) :
    (m.run budget).machine.core.Sound :=
  runTo_sound (target m.core.cycles budget) h []

/-! ## Commands -/

/-- Of the pins, only the reset line touches registers, and it resets them. -/
theorem setPin_sound (h : m.core.Sound) (pin : Pin) (level : Bool) :
    (m.setPin pin level).machine.core.Sound := by
  cases pin with
  | reset =>
      simp only [setPin]
      by_cases hreleased : (m.core.pins.reset && !level) = true
      · rw [if_pos hreleased]
        exact reset_sound _
      · rw [if_neg hreleased]
        exact h
  | ready | irq | nmi | abort => exact h

/-- Every command keeps the registers sound. -/
theorem perform_sound (h : m.core.Sound) (command : Command) :
    (m.perform command).machine.core.Sound := by
  -- Commands that set a register do what an instruction does. The others leave registers alone, or
  -- make steps.
  cases command with
  | step => exact step_sound h
  | run budget => exact run_sound h budget
  | reset => exact reset_sound m
  | setPin pin level => exact setPin_sound h pin level
  | setEmulation emulation => exact Registers.switchMode_sound _ emulation
  | setStatus v => exact Effect.narrowIndexes_sound h (m.core.status.load_sameMode v)
  | setX v => exact h.setX (Width.fits_truncate _ v)
  | setY v => exact h.setY (Width.fits_truncate _ v)
  | setStackPointer v => exact h.relocate v
  | jump _ | setA _ | setD _ | setDataBank _ | setProgramBank _ | setProgramCounter _ =>
      exact h.frame rfl rfl rfl rfl
  | setTrace _ | pause | resume | requestStep | storeByte _ _ | storeWord _ _ | storeLong _ _ =>
      exact h

/-- A machine that comes from a start by commands. Between them, anything can happen to its bus. -/
inductive Reachable : Machine B → Prop where
  | start (bus : B) (configuration : Configuration) : Reachable (start bus configuration).machine
  | perform {m : Machine B} (h : Reachable m) (command : Command) :
      Reachable (m.perform command).machine
  | alterBus {m : Machine B} (h : Reachable m) (bus : B) : Reachable { m with bus }

/-- What resets establish and commands keep holds of every reachable core. -/
theorem Reachable.keeps {P : Core → Prop} (hreset : ∀ m : Machine B, P m.reset.machine.core)
    (hperform : ∀ (m : Machine B) c, P m.core → P (m.perform c).machine.core)
    (h : m.Reachable) : P m.core := by
  induction h with
  | start bus configuration => exact hreset _
  | perform _ command ih => exact hperform _ command ih
  | alterBus _ bus ih => exact ih

theorem Reachable.sound (h : m.Reachable) : m.core.Sound :=
  h.keeps reset_sound fun _ command hm => perform_sound hm command

end Machine

/-- In every reachable machine, the stack and the width flags go with the mode, a confined stack is
    on page 1, and narrow index registers hold bytes. -/
theorem reachable_sound {B : Type} [Bus B] {m : Machine B} (h : m.Reachable) : m.core.Sound :=
  h.sound

/-- A machine that has been to native mode and back, and then made a step. -/
theorem sound_after_native_mode :
    let m := (Machine.start Memory.blank .standard).machine
    let m := (m.perform (.setEmulation false)).machine
    let m := (m.perform (.setStatus 0)).machine
    let m := (m.perform (.setX 0x1234)).machine
    let m := (m.perform (.setEmulation true)).machine
    let m := (m.perform .step).machine
    m.Reachable ∧ m.core.Sound := by
  intro m₀ m₁ m₂ m₃ m₄ m₅
  have hstart : m₀.Reachable := .start Memory.blank .standard
  have hwide := ((hstart.perform (.setEmulation false)).perform (.setStatus 0)).perform
    (.setX 0x1234)
  have hstep : m₅.Reachable := (hwide.perform (.setEmulation true)).perform .step
  exact ⟨hstep, reachable_sound hstep⟩

end W65C816
