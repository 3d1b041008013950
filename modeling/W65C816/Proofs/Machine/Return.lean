import W65C816.Proofs.Machine.Entry
import W65C816.Proofs.Machine.Reachable

/-!
# Coming back from an interrupt

An interrupt saves what its handler cannot help changing, and `RTI` takes it back. The two are far
apart in code and differ in every mode, but a handler that does nothing else leaves no trace.

* `Status.pull_savedStatus`: the flags come back as they were, whatever became of bits 4 and 5.
* `Interrupted` says that a machine is in a handler with its frame still on the stack.
  `Machine.step_interrupted` and `Machine.step_break` lead there, `Interrupted.finish` leads back.
-/

namespace W65C816

/-! ## Flags -/

namespace Status

theorem has_and (u v w : UInt8) : has (u &&& v) w = has u (v &&& w) := by
  rw [has, has, UInt8.and_assoc]

/-- What an interrupt makes of bit 4 says nothing of the other bits. -/
theorem has_savedStatus (s : Status) (source : Interrupt) (weight : UInt8)
    (hset : has 0x10 weight = false) (hclear : 0xEF &&& weight = weight) :
    has (Action.savedStatus s source) weight = has s.pack weight := by
  rw [Action.savedStatus]
  split
  · split
    · rw [has_or, hset, Bool.or_false]
    · rw [has_and, hclear]
  · rfl

/-- A pull takes the flags from the bits of the byte. In emulation mode it takes no widths. -/
theorem pull_of_has {s found : Status} {v : UInt8} (hmode : found.emulation = s.emulation)
    (hflags : ∀ weight ∈ [0x01, 0x02, 0x04, 0x08, 0x40, 0x80], has v weight = has s.pack weight)
    (hwidths : s.emulation = false → ∀ weight ∈ [0x10, 0x20], has v weight = has s.pack weight) :
    found.pull v = { s with
      breakFlag := found.breakFlag
      narrowAccumulator := if s.emulation then found.narrowAccumulator else s.narrowAccumulator
      narrowIndex := if s.emulation then found.narrowIndex else s.narrowIndex } := by
  simp only [List.forall_mem_cons, List.not_mem_nil, false_implies, implies_true, and_true]
    at hflags hwidths
  obtain ⟨hc, hz, hi, hd, hx, hm, hv, hn⟩ := s.has_pack
  obtain ⟨hc', hz', hi', hd', hv', hn'⟩ := hflags
  cases he : s.emulation with
  | true =>
      simp only [pull, load, hmode, he, if_true, hc', hz', hi', hd', hv', hn', hc, hz, hi, hd, hv,
        hn]
  | false =>
      obtain ⟨hx', hm'⟩ := hwidths he
      simp only [pull, load, hmode, he, Bool.false_eq_true, if_false, hc', hz', hi', hd', hx', hm',
        hv', hn', hc, hz, hi, hd, hx, hm, hv, hn, Bool.false_or]

/-- Flags that an interrupt has saved come back as they were. -/
theorem pull_savedStatus (s : Status) (source : Interrupt) :
    ({ s with irqDisable := true, decimal := false } : Status).pull (Action.savedStatus s source) =
      s := by
  refine (pull_of_has (s := s) rfl ?_ ?_).trans ?_
  · intro weight hweight
    simp only [List.mem_cons, List.not_mem_nil, or_false] at hweight
    -- Bits 4 and 5 are made up for the stack; these six are not.
    rcases hweight with rfl | rfl | rfl | rfl | rfl | rfl
    all_goals exact s.has_savedStatus source _ rfl rfl
  · intro hnative weight _
    rw [Action.savedStatus, hnative]
    rfl
  · simp only [ite_self]

end Status

namespace Action

/-- Leaving an interrupt takes back the flags, the offset, and in native mode the bank. -/
theorem finishInterrupt_run {B : Type} [Bus B] {i : Instruction} (hi : i.effect = .finishInterrupt)
    (m : Machine B) :
    (execute i).run m =
      let flags := m.core.stack.pullByte m.bus
      let offset := flags.2.1.pullWord flags.2.2
      let bank := offset.2.1.pullByte offset.2.2
      if m.core.status.emulation then
        ((), ⟨(m.core.mapRegisters fun r =>
          (Effect.pullStatus flags.1 { r with stack := offset.2.1 }).arrive .near
            ⟨0, offset.1⟩).charge i.baseCycles.toUInt64, offset.2.2⟩)
      else
        ((), ⟨(m.core.mapRegisters fun r =>
          (Effect.pullStatus flags.1 { r with stack := bank.2.1 }).arrive .far
            ⟨bank.1, offset.1⟩).charge (i.baseCycles.toUInt64 + 1), bank.2.2⟩) := by
  obtain ⟨⟨⟨a, x, y, d, dbr, pbr, pc, stack, flags⟩, cycles⟩, bus⟩ := m
  obtain ⟨carry, zero, irqDisable, decimal, breakFlag, accumulator, index, emulation⟩ := flags
  unfold execute
  rw [hi]
  cases emulation with
  | true => rfl
  | false => rfl

/-- With its frame on the stack, an interrupt can be left. -/
theorem finishInterrupt_run_frame {i : Instruction} (hi : i.effect = .finishInterrupt)
    {m : Machine Memory} {r : Registers} {source : Interrupt} {returnTo : UInt16}
    (hhomed : r.stack.Homed) (hmode : m.core.status.emulation = r.status.emulation)
    (hstack : m.core.stack = r.stack.below (frame r source returnTo).length)
    (hframe : r.stack.Holds m.bus (frame r source returnTo)) :
    (execute i).run m = ((), ⟨(m.core.mapRegisters fun now =>
      (Effect.pullStatus (savedStatus r.status source) { now with stack := r.stack }).arrive
        (if r.status.emulation then .near else .far) ⟨r.pbr, returnTo⟩).charge
          (i.baseCycles.toUInt64 + if r.status.emulation then 0 else 1), m.bus⟩) := by
  -- The frame is taken apart from its end: the flags, then the offset, then the bank if any.
  obtain ⟨bank, hbank⟩ : ∃ bank, bank = if r.status.emulation then [] else [r.pbr] := ⟨_, rfl⟩
  have hlist : frame r source returnTo =
      (bank ++ [highByte returnTo, lowByte returnTo]) ++ [savedStatus r.status source] := by
    rw [frame, ← hbank, List.append_assoc]
    rfl
  rw [hlist] at hstack hframe
  have hflags := Stack.pullByte_of_holds hframe
  have hoffset := Stack.pullWord_of_holds hframe.left
  rw [List.length_append, List.length_singleton] at hstack
  rw [List.length_append] at hstack hflags
  rw [finishInterrupt_run hi, hmode, hstack, hflags]
  simp only [List.length_cons, List.length_nil, Nat.zero_add, Nat.reduceAdd]
  rw [hoffset, joinBytes_lowByte_highByte]
  -- In native mode there is the program bank besides.
  cases he : r.status.emulation with
  | true =>
      obtain rfl : bank = [] := by rw [hbank, he]; rfl
      simp only [List.length_nil, if_true, UInt64.add_zero]
      rw [Stack.below_zero hhomed]
      rfl
  | false =>
      obtain rfl : bank = [r.pbr] := by rw [hbank, he]; rfl
      have hbank := Stack.pullByte_of_holds (l := []) hframe.left.left
      simp only [List.length_cons, List.length_nil, Nat.zero_add, Bool.false_eq_true,
        if_false] at hbank ⊢
      rw [hbank, Stack.below_zero hhomed]

end Action

/-! ## In the handler -/

theorem Registers.Sound.homed {r : Registers} (h : r.Sound) : r.stack.Homed := by
  rw [Stack.Homed, h.confined]
  apply UInt16.toNat_inj.mp
  rw [Stack.toNat_home]
  cases he : r.status.emulation with
  | false => rfl
  | true =>
      have hpage := h.page he
      rw [UInt16.le_iff_toNat_le, UInt16.le_iff_toNat_le] at hpage
      simp only [UInt16.reduceToNat] at hpage
      simp only [if_true]
      omega

theorem Memory.bus_readWordInBank (m : Memory) (a : Address) : (Bus.readWordInBank m a).2 = m := by
  rw [Bus.readWordInBank]
  split
  · rfl
  · rfl

/-- A machine that has been interrupted with these registers, and whose frame is on the stack. -/
structure Interrupted (r : Registers) (source : Interrupt) (returnTo : UInt16)
    (m : Machine Memory) : Prop where
  registers : ∃ pc, m.core.toRegisters =
    ({ r with stack := r.stack.below (Action.frame r source returnTo).length } :
      Registers).interrupted pc
  frame : r.stack.Holds m.bus (Action.frame r source returnTo)

/-- After an interrupt has been entered, its frame is on the stack and the mode is the same. -/
theorem Action.enterInterrupt_interrupted {m : Machine Memory} {r : Registers} (hr : r.Sound)
    (hm : m.core.toRegisters = r) (source : Interrupt) (returnTo : UInt16) :
    let after := ((enterInterrupt source returnTo).run m).2
    Interrupted r source returnTo after ∧
      after.core.cycles = m.core.cycles + entryCycles r.status := by
  obtain rfl := hm
  have hhomed := hr.homed
  have hroom : (frame m.core.toRegisters source returnTo).length ≤ m.core.stack.capacity :=
    Nat.le_trans (length_frame_le _ source returnTo) m.core.stack.page_le_capacity
  have hstack := Stack.pushAll_stack hhomed m.bus (frame m.core.toRegisters source returnTo)
  have hbus := Stack.holds_pushAll hhomed m.bus hroom
  rw [enterInterrupt_run]
  generalize m.core.stack.pushAll m.bus (frame m.core.toRegisters source returnTo) = pushed
    at hstack hbus
  obtain ⟨stack, bus⟩ := pushed
  obtain rfl := hstack
  refine ⟨⟨⟨_, rfl⟩, ?_⟩, rfl⟩
  simp only [Memory.bus_readWordInBank]
  exact hbus

namespace Machine

variable {m : Machine Memory}

theorem spent_eq (start n : UInt64) : start + n - start = n := by
  rw [UInt64.add_comm, UInt64.add_sub_cancel]

/-- In flat memory, fetching an opcode leaves no trace. -/
theorem step_instruction_run (h : m.core.decide m.irqLine = .instruction) :
    let after := ((Action.execute m.fetched).run { m with core := m.core.wake }).2
    m.step.machine = { after with core := after.core.publish } ∧
      m.step.result = after.core.cycles - m.core.cycles := by
  rw [step_eq_advance h, machine_account, result_account, machine_advance]
  exact ⟨rfl, rfl⟩

/-- A step that serves an interrupt enters it from where the program is. -/
theorem step_interrupt_run {source : Interrupt} (h : m.core.decide m.irqLine = .interrupt source) :
    let before := { m with core := m.core.wake.acknowledge source }
    let after := ((Action.enterInterrupt source before.core.pc).run before).2
    m.step.machine = { after with core := after.core.publish } ∧
      m.step.result = after.core.cycles - m.core.cycles := by
  have hserve : (serve { m with core := m.core.wake } source).machine =
      ((Action.enterInterrupt source (m.core.wake.acknowledge source).pc).run
        { m with core := m.core.wake.acknowledge source }).2 := rfl
  rw [step_eq_serve h, machine_account, result_account, hserve]
  exact ⟨rfl, rfl⟩

/-- The panel is no part of what the handler finds. -/
theorem interrupted_publish {r : Registers} {source : Interrupt} {returnTo : UInt16}
    (h : Interrupted r source returnTo m) :
    Interrupted r source returnTo { m with core := m.core.publish } :=
  ⟨h.registers, h.frame⟩

/-- An interrupt from outside leads back to the instruction that would have come next. -/
theorem step_interrupted {source : Interrupt} (hm : m.core.Sound)
    (h : m.core.decide m.irqLine = .interrupt source) :
    Interrupted m.core.toRegisters source m.core.pc m.step.machine ∧
      m.step.result = Action.entryCycles m.core.status := by
  obtain ⟨hmachine, hresult⟩ := step_interrupt_run h
  have hbefore : (m.core.wake.acknowledge source).toRegisters = m.core.toRegisters ∧
      (m.core.wake.acknowledge source).cycles = m.core.cycles := by
    cases source with
    | abort | nmi | irq | brk | cop => exact ⟨rfl, rfl⟩
  obtain ⟨hregisters, hcycles⟩ := hbefore
  obtain ⟨hinterrupted, hspent⟩ := Action.enterInterrupt_interrupted hm
    (m := { m with core := m.core.wake.acknowledge source }) hregisters source m.core.pc
  rw [hmachine, hresult]
  simp only
  rw [congrArg Registers.pc hregisters, hspent, hcycles]
  exact ⟨interrupted_publish hinterrupted, spent_eq _ _⟩

/-- An operation that interrupts the program leads back behind its signature byte. -/
theorem step_break (hm : m.core.Sound) (h : m.core.decide m.irqLine = .instruction)
    (hi : m.fetched.operation ∈ [.brk, .cop]) :
    ∃ source, Interrupted m.core.toRegisters source (m.core.pc + 2) m.step.machine ∧
      m.step.result = Action.entryCycles m.core.status := by
  obtain ⟨hmachine, hresult⟩ := step_instruction_run h
  have hmode : m.fetched.mode = .interrupt :=
    Instruction.mode_of_break _ (Instruction.ofOpcode_mem _) hi
  obtain ⟨source, heffect⟩ := Instruction.effect_of_break hi
  have hrun : (Action.execute m.fetched).run { m with core := m.core.wake } =
      (Action.enterInterrupt source (m.core.pc + 2)).run { m with core := m.core.wake } := by
    rw [Action.interrupt_run heffect, hmode]
    rfl
  obtain ⟨hinterrupted, hspent⟩ := Action.enterInterrupt_interrupted hm
    (m := { m with core := m.core.wake }) rfl source (m.core.pc + 2)
  refine ⟨source, ?_⟩
  rw [hmachine, hresult, hrun, hspent]
  exact ⟨interrupted_publish hinterrupted, spent_eq _ _⟩

end Machine

/-- The flags that have been saved bring back the registers, but for the program address. -/
theorem Effect.pullStatus_interrupted {r : Registers} (hr : r.Sound) (source : Interrupt)
    (stack : Stack) (pc : UInt16) :
    pullStatus (Action.savedStatus r.status source)
        { ({ r with stack := stack } : Registers).interrupted pc with stack := r.stack } =
      { r with pbr := 0, pc } := by
  have hsound : ({ r with pbr := 0, pc } : Registers).Sound := hr.frame rfl rfl rfl rfl
  rw [pullStatus]
  simp only [Registers.interrupted]
  rw [Status.pull_savedStatus]
  exact hsound.narrowIndexes_eq id

/-- Whoever comes back from an interrupt finds everything as it was. -/
theorem Interrupted.finish {r : Registers} {source : Interrupt} {returnTo : UInt16}
    {m : Machine Memory} (h : Interrupted r source returnTo m) (hr : r.Sound)
    (hstep : m.core.decide m.irqLine = .instruction)
    (hrti : m.bus.get m.core.programAddress = 0x40) :
    m.step.machine.core.toRegisters =
        { r with pc := returnTo, pbr := if r.status.emulation then 0 else r.pbr } ∧
      m.step.result = if r.status.emulation then 6 else 7 := by
  obtain ⟨⟨pc, hregisters⟩, hframe⟩ := h
  obtain ⟨hmachine, hresult⟩ := Machine.step_instruction_run hstep
  have hfetched : m.fetched = ⟨.rti, .stackImplied, 6⟩ := by
    change Instruction.ofOpcode (m.bus.get m.core.programAddress) = _
    rw [hrti]
    decide +kernel
  have heffect : m.fetched.effect = .finishInterrupt := by rw [hfetched]; rfl
  have hstack : m.core.stack = r.stack.below (Action.frame r source returnTo).length :=
    congrArg Registers.stack hregisters
  -- The handler may have changed any other flag.
  have hmode : m.core.status.emulation = r.status.emulation := by
    rw [hregisters]
    rfl
  have hrun := Action.finishInterrupt_run_frame (m := { m with core := m.core.wake }) heffect
    hr.homed hmode hstack hframe
  rw [hmachine, hresult, hrun]
  constructor
  · simp only [Core.publish, Core.charge, Core.mapRegisters, Core.wake]
    rw [hregisters, Effect.pullStatus_interrupted hr]
    cases r.status.emulation with
    | true => rfl
    | false => rfl
  · rw [hfetched]
    cases r.status.emulation with
    | true => exact Machine.spent_eq m.core.cycles 6
    | false => exact Machine.spent_eq m.core.cycles 7

/-- With no edge latched, a handler that has been entered is not interrupted by a request. -/
theorem Interrupted.decide_instruction {r : Registers} {source : Interrupt} {returnTo : UInt16}
    {m : Machine Memory} (h : Interrupted r source returnTo m)
    (habort : m.core.abortPending = false) (hnmi : m.core.nmiPending = false)
    (hrun : m.core.decide m.irqLine ≠ .idle) : m.core.decide m.irqLine = .instruction := by
  obtain ⟨⟨pc, hregisters⟩, -⟩ := h
  have hdisabled : m.core.status.irqDisable = true := by
    rw [hregisters]
    rfl
  cases hdecide : m.core.decide m.irqLine with
  | idle => exact absurd hdecide hrun
  | instruction => rfl
  | interrupt other =>
      obtain ⟨-, hset⟩ | ⟨-, hset⟩ | ⟨-, hclear⟩ := Core.decide_interrupt hdecide
      · exact absurd hset (Bool.eq_false_iff.mp habort)
      · exact absurd hset (Bool.eq_false_iff.mp hnmi)
      · rw [hdisabled] at hclear
        exact nomatch hclear

/-- An interrupt whose handler comes back at once leaves no trace in the registers, wherever the
    stack is. The pins may have moved meanwhile. -/
theorem interrupt_and_return {m m' : Machine Memory} (h : m.Reachable) {returnTo : UInt16}
    (hfirst : (∃ source, m.core.decide m.irqLine = .interrupt source ∧ returnTo = m.core.pc) ∨
      (m.core.decide m.irqLine = .instruction ∧ m.fetched.operation ∈ [.brk, .cop] ∧
        returnTo = m.core.pc + 2))
    (hregisters : m'.core.toRegisters = m.step.machine.core.toRegisters)
    (hbus : m'.bus = m.step.machine.bus) (hrti : m'.bus.get m'.core.programAddress = 0x40)
    (habort : m'.core.abortPending = false) (hnmi : m'.core.nmiPending = false)
    (hrun : m'.core.decide m'.irqLine ≠ .idle) :
    m'.step.machine.core.toRegisters =
        { m.core.toRegisters with
          pc := returnTo
          pbr := if m.core.status.emulation then 0 else m.core.pbr } ∧
      m.step.result + m'.step.result = if m.core.status.emulation then 13 else 15 := by
  have hentered : ∃ source, Interrupted m.core.toRegisters source returnTo m.step.machine ∧
      m.step.result = Action.entryCycles m.core.status := by
    obtain ⟨source, hstep, rfl⟩ | ⟨hstep, hbreak, rfl⟩ := hfirst
    · exact ⟨source, Machine.step_interrupted h.sound hstep⟩
    · exact Machine.step_break h.sound hstep hbreak
  obtain ⟨source, hinterrupted, hentry⟩ := hentered
  have hhandler : Interrupted m.core.toRegisters source returnTo m' := by
    obtain ⟨⟨pc, hpc⟩, hframe⟩ := hinterrupted
    refine ⟨⟨pc, hregisters.trans hpc⟩, ?_⟩
    rw [hbus]
    exact hframe
  obtain ⟨hback, hexit⟩ := hhandler.finish h.sound
    (hhandler.decide_instruction habort hnmi hrun) hrti
  refine ⟨hback, ?_⟩
  rw [hentry, hexit, Action.entryCycles]
  cases m.core.status.emulation with
  | true => rfl
  | false => rfl

/-- An NMI in native mode whose frame wraps in bank 0. -/
theorem nmi_and_return_wrapped :
    let m := (Machine.start ((Memory.blank.set ⟨0, 0xFFEB⟩ 0x20).set ⟨0, 0x2000⟩ 0x40)
      .standard).machine
    let m := (m.perform (.setEmulation false)).machine
    let m := (m.perform (.setStackPointer 0x0001)).machine
    let m := (m.perform (.setPin .nmi true)).machine
    let m' := m.step.machine
    m.Reachable ∧ m.core.decide m.irqLine = .interrupt .nmi ∧
      m'.bus.get m'.core.programAddress = 0x40 ∧ m'.core.stack.pointer = 0xFFFD ∧
      m'.step.machine.core.toRegisters = m.core.toRegisters ∧
      m.step.result + m'.step.result = 15 := by
  intro m₀ m₁ m₂ m m'
  have hreachable : m.Reachable :=
    (((Machine.Reachable.start _ _).perform (.setEmulation false)).perform
      (.setStackPointer 0x0001)).perform (.setPin .nmi true)
  have hstep : m.core.decide m.irqLine = .interrupt .nmi := rfl
  have hrti : m'.bus.get m'.core.programAddress = 0x40 := by decide +kernel
  have hregisters : m'.core.toRegisters = m.step.machine.core.toRegisters := rfl
  obtain ⟨hback, hcycles⟩ := interrupt_and_return hreachable (.inl ⟨.nmi, hstep, rfl⟩) hregisters
    rfl hrti rfl rfl nofun
  have hnative : m.core.status.emulation = false := rfl
  have hwrapped : m'.core.stack.pointer = 0xFFFD := by decide +kernel
  rw [hnative] at hback hcycles
  clear_value m' m
  exact ⟨hreachable, hstep, hrti, hwrapped, hback, hcycles⟩

end W65C816
