import W65C816.Proofs.Machine.Addressing
import W65C816.Proofs.Machine.Footprint

/-!
# The frame of an interrupt

What a handler can rely on when it is reached: where the return address and the flags are, byte by
byte, that nothing else has been written, and where it has been found.

* `Status.SavedAs` is what is said of the byte that the flags are saved as. In emulation mode it
  tells a break from the other interrupts.
* `VectorTables.location_eq` finds the vector by the two tables: emulation mode has no vector for a
  break, which goes the way of a request.
* `Stack.pushAll_recorded` is the record of a number of pushes.
* `interrupt_frame_exact` puts together what crosses the bus, what becomes of memory, and the
  registers. The vector is read last, so a frame may lie over it.
-/

namespace W65C816

/-! ## The saved flags -/

/-- What the flags are saved as. In native mode the byte is their packed form. In emulation mode bit
    5 is set, and bit 4 is set for a break alone. -/
structure Status.SavedAs (s : Status) (source : Interrupt) (saved : UInt8) : Prop where
  native : s.emulation = false → saved = s.pack
  unused : s.emulation = true → has saved 0x20 = true
  broken : s.emulation = true → (has saved 0x10 = true ↔ source = .brk)
  flags : ∀ weight ∈ [0x01, 0x02, 0x04, 0x08, 0x40, 0x80], has saved weight = has s.pack weight

namespace Status

theorem savedStatus_native {s : Status} (h : s.emulation = false) (source : Interrupt) :
    Action.savedStatus s source = s.pack := by
  rw [Action.savedStatus, h]
  rfl

/-- Bit 4 tells a break, whatever the break flag is. -/
theorem has_savedStatus_break {s : Status} (h : s.emulation = true) (source : Interrupt) :
    has (Action.savedStatus s source) 0x10 = true ↔ source = .brk := by
  rw [Action.savedStatus, if_pos h]
  by_cases hbrk : source = .brk
  · rw [if_pos hbrk, has_or]
    simp [hbrk, has]
  · have hmask : (0xEF &&& 0x10 : UInt8) = 0 := rfl
    rw [if_neg hbrk, has_and, hmask]
    simp [hbrk, has]

/-- In emulation mode, bit 4 of the saved flags tells BRK from the other sources. -/
theorem savedAs (s : Status) (source : Interrupt) :
    s.SavedAs source (Action.savedStatus s source) := by
  constructor
  · exact fun hnative => savedStatus_native hnative source
  · intro hemulation
    rw [s.has_savedStatus source 0x20 rfl rfl, s.has_pack.2.2.2.2.2.1, hemulation]
    rfl
  · exact fun hemulation => has_savedStatus_break hemulation source
  · intro weight hweight
    simp only [List.mem_cons, List.not_mem_nil, or_false] at hweight
    rcases hweight with rfl | rfl | rfl | rfl | rfl | rfl
    all_goals exact s.has_savedStatus source _ rfl rfl

end Status

/-! ## The vector -/

/-- The location in a table that has the name of the interrupt. -/
def VectorTable.named (t : VectorTable) : Interrupt → UInt16
  | .abort => t.abort
  | .nmi => t.nmi
  | .irq => t.irq
  | .brk => t.brk
  | .cop => t.cop

/-- In emulation mode BRK has the vector of requests. Otherwise each source has its own. -/
theorem VectorTables.location_eq (t : VectorTables) (source : Interrupt) (emulation : Bool) :
    t.location source emulation =
      if emulation then t.emulation.named (if source = .brk then .irq else source)
      else t.native.named source := by
  cases emulation with
  | true => cases source <;> rfl
  | false => cases source <;> rfl

/-- In flat memory the second byte of a word is found in the same bank. -/
theorem Memory.readWordInBank_eq (m : Memory) (a : Address) :
    (Bus.readWordInBank m a).1 = joinBytes (m.get a) (m.get (a.inBank 1)) := by
  have hfresh : (Recorded.fresh m).bus = m := rfl
  have hrecorded := Recorded.memory_simulation.readWordInBank a hfresh
  rw [hrecorded.1, Recorded.readWordInBank_eq]
  rfl

/-! ## Pushes on record -/

namespace Stack

variable {s : Stack}

/-- Each byte that is pushed is written to its place, one after the other. -/
theorem pushAll_recorded {B : Type} [Bus B] (hs : s.Homed) (b : Recorded B) (l : List UInt8) :
    (s.pushAll b l).2 = ⟨(s.pushAll b.bus l).2,
      (List.zipWith Access.write ((List.range l.length).map s.place) l).reverse ++ b.accesses⟩ := by
  induction l generalizing s b with
  | nil => rfl
  | cons v rest ih =>
      have hplaces : (List.range (v :: rest).length).map s.place =
          s.address :: (List.range rest.length).map s.lowered.place := by
        rw [List.length_cons, List.range_succ_eq_map, List.map_cons, List.map_map, place_zero hs]
        exact congrArg (s.address :: ·) (List.map_congr_left fun k _ => (s.place_lowered k).symm)
      rw [hplaces, List.zipWith_cons_cons, List.reverse_cons, List.append_assoc]
      exact ih (s.homed_relocate _) (Bus.write b s.address v)

end Stack

namespace Registers.Sound

variable {r : Registers} (h : r.Sound)

include h

theorem below_eq (n : Nat) : r.stack.below n = { r.stack with pointer := r.pointerBelow n } := by
  rw [Registers.pointerBelow, ← h.confined]
  rfl

/-- A byte is pushed to where the pointer will have got by then. -/
theorem place_eq (n : Nat) : r.stack.place n = ⟨0, r.pointerBelow n⟩ := by
  rw [Stack.place, h.below_eq]
  rfl

theorem pushPlaces_eq (n : Nat) : (List.range n).map r.stack.place = r.pushPlaces n :=
  List.map_congr_left fun k _ => h.place_eq k

end Registers.Sound

/-! ## Entering an interrupt -/

/-- The bytes that an interrupt pushes, with the flags saved in a given byte. -/
def Registers.interruptBytes (r : Registers) (returnTo : UInt16) (saved : UInt8) : List UInt8 :=
  (if r.status.emulation then [] else [r.pbr]) ++ [highByte returnTo, lowByte returnTo, saved]

/-- Where the vector of an interrupt lies. -/
def Core.vector (c : Core) (source : Interrupt) : UInt16 :=
  if c.status.emulation then c.vectors.emulation.named (if source = .brk then .irq else source)
  else c.vectors.native.named source

/-- The frame has the bank of the program in native mode only. -/
theorem Action.length_frame (r : Registers) (source : Interrupt) (returnTo : UInt16) :
    (frame r source returnTo).length = r.status.frameSize := by
  rw [frame, Status.frameSize]
  cases r.status.emulation with
  | true => rfl
  | false => rfl

/-- All that becomes of a machine on flat memory. -/
theorem Action.enterInterrupt_eq {m : Machine Memory} (hm : m.core.Sound) (source : Interrupt)
    (returnTo : UInt16) :
    let r := m.core.toRegisters
    let memory := (r.stack.pushAll m.bus (frame r source returnTo)).2
    let vector := m.core.vector source
    ((enterInterrupt source returnTo).run m).2 =
      ⟨(m.core.mapRegisters fun r =>
        ({ r with stack := { r.stack with pointer := r.pointerBelow r.status.frameSize } } :
          Registers).interrupted
            (joinBytes (memory.get ⟨0, vector⟩) (memory.get ⟨0, vector + 1⟩))).charge
          (entryCycles m.core.status), memory⟩ := by
  intro r memory vector
  have hstack := Stack.pushAll_stack hm.homed m.bus (frame r source returnTo)
  rw [length_frame, hm.below_eq] at hstack
  rw [enterInterrupt_run, VectorTables.location_eq]
  simp only [Memory.bus_readWordInBank, Memory.readWordInBank_eq]
  rw [hstack]
  rfl

/-- All that crosses the bus. -/
theorem Action.enterInterrupt_recorded {m : Machine Memory} (hm : m.core.Sound) (source : Interrupt)
    (returnTo : UInt16) :
    let r := m.core.toRegisters
    let bytes := frame r source returnTo
    let memory := (r.stack.pushAll m.bus bytes).2
    let vector := m.core.vector source
    ((enterInterrupt source returnTo).run m.recorded).2.bus.accesses.reverse =
      List.zipWith Access.write (r.pushPlaces bytes.length) bytes ++
        [.read ⟨0, vector⟩ (memory.get ⟨0, vector⟩),
          .read ⟨0, vector + 1⟩ (memory.get ⟨0, vector + 1⟩)] := by
  intro r bytes memory vector
  have hpushed := Stack.pushAll_recorded hm.homed (.fresh m.bus) bytes
  rw [hm.pushPlaces_eq] at hpushed
  rw [enterInterrupt_run, VectorTables.location_eq]
  simp only [Recorded.bus_readWordInBank]
  change List.reverse (((r.stack.pushAll (Recorded.fresh m.bus) bytes).2).afterReads
    [⟨0, vector⟩, ⟨0, vector + 1⟩]).accesses = _
  rw [hpushed]
  change List.reverse (_ :: _ :: (List.reverse _ ++ [])) = _
  rw [List.append_nil, List.reverse_cons, List.reverse_cons, List.reverse_reverse,
    List.append_assoc]
  rfl

/-- An interrupt writes its frame below the stack, the program bank first if there is one, then the
    return address from its high byte on, and the flags last. It writes nothing else, and reads
    nothing but its vector after that. In the handler requests are disabled, decimal mode is off,
    the program bank is 0, the stack is as much lower as the frame is long, and all other registers
    are what they were. -/
theorem interrupt_frame_exact {m : Machine Memory} (h : m.Reachable) (source : Interrupt)
    (returnTo : UInt16) :
    let r := m.core.toRegisters
    let size := if r.status.emulation then 3 else 4
    let vector := m.core.vector source
    let after := ((Action.enterInterrupt source returnTo).run m).2
    let record := ((Action.enterInterrupt source returnTo).run m.recorded).2.bus.accesses.reverse
    let low := after.bus.get ⟨0, vector⟩
    let high := after.bus.get ⟨0, vector + 1⟩
    ∃ saved, r.status.SavedAs source saved ∧
      record = List.zipWith Access.write (r.pushPlaces size) (r.interruptBytes returnTo saved) ++
        [.read ⟨0, vector⟩ low, .read ⟨0, vector + 1⟩ high] ∧
      (∀ k v, (r.interruptBytes returnTo saved)[k]? = some v →
        after.bus.get ⟨0, r.pointerBelow k⟩ = v) ∧
      (∀ a ∉ r.pushPlaces size, after.bus.get a = m.bus.get a) ∧
      after.core.toRegisters = { r with
        pbr := 0
        pc := joinBytes low high
        stack := { r.stack with pointer := r.pointerBelow size }
        status := { r.status with irqDisable := true, decimal := false } } := by
  intro r size vector after record low high
  have hm : r.Sound := h.sound
  have hlength : (Action.frame r source returnTo).length = size :=
    Action.length_frame r source returnTo
  have hroom : (Action.frame r source returnTo).length ≤ r.stack.capacity :=
    Nat.le_trans (Action.length_frame_le _ source returnTo) r.stack.page_le_capacity
  -- What the processor does is to push the frame, to read the vector and to set registers.
  have hafter := Action.enterInterrupt_eq hm source returnTo
  have hbus : after.bus = (r.stack.pushAll m.bus (Action.frame r source returnTo)).2 :=
    congrArg Machine.bus hafter
  refine ⟨Action.savedStatus r.status source, r.status.savedAs source, ?_, ?_, ?_, ?_⟩
  · show record = List.zipWith Access.write (r.pushPlaces size) _ ++
      [.read ⟨0, vector⟩ (after.bus.get _), .read ⟨0, vector + 1⟩ (after.bus.get _)]
    rw [hbus, ← hlength]
    exact Action.enterInterrupt_recorded hm source returnTo
  · intro k v hv
    rw [← hm.place_eq, hbus]
    exact Stack.holds_pushAll hm.homed m.bus hroom k v hv
  -- Outside the frame, memory is as it was.
  · intro a ha
    rw [hbus]
    refine Stack.get_pushAll_of_ne hm.homed m.bus fun k hk heq => ha ?_
    rw [← heq]
    exact hm.place_mem (hlength ▸ hk)
  · show after.core.toRegisters = { r with
      pbr := 0
      pc := joinBytes (after.bus.get _) (after.bus.get _)
      stack := _
      status := _ }
    rw [hbus]
    exact congrArg (fun m => m.core.toRegisters) hafter

/-- A request in native mode whose frame wraps in bank 0 and lies over its own vector, which wraps
    there as well: the handler is where the program would have gone on. -/
theorem frame_over_its_vector :
    let vectors : VectorTables := { VectorTables.standard with
      native := { VectorTable.native with irq := 0xFFFF } }
    let m := (Machine.start Memory.blank ⟨vectors, false⟩).machine
    let m := (m.perform (.setEmulation false)).machine
    let m := (m.perform (.setStackPointer 0x0001)).machine
    let after := ((Action.enterInterrupt .irq 0x1234).run m).2
    m.Reachable ∧ m.core.pushPlaces 4 = [⟨0, 1⟩, ⟨0, 0⟩, ⟨0, 0xFFFF⟩, ⟨0, 0xFFFE⟩] ∧
      m.core.vector .irq = 0xFFFF ∧ after.core.pc = 0x1234 ∧ after.core.stack.pointer = 0xFFFD := by
  intro vectors m₀ m₁ m after
  have hreachable : m.Reachable :=
    ((Machine.Reachable.start _ _).perform (.setEmulation false)).perform (.setStackPointer 0x0001)
  have hplaces : m.core.pushPlaces 4 = [⟨0, 1⟩, ⟨0, 0⟩, ⟨0, 0xFFFF⟩, ⟨0, 0xFFFE⟩] := by
    decide +kernel
  have hvector : m.core.vector .irq = 0xFFFF := by decide +kernel
  have hnext : m.core.vector .irq + 1 = 0 := by rw [hvector]; rfl
  -- The vector is read after the frame has been pushed, so its bytes are two of the frame.
  have hfirst : m.core.pointerBelow 1 = 0 := by decide +kernel
  have hsecond : m.core.pointerBelow 2 = 0xFFFF := by decide +kernel
  have hfourth : m.core.pointerBelow 4 = 0xFFFD := by decide +kernel
  obtain ⟨saved, -, -, hheld, -, hregisters⟩ := interrupt_frame_exact hreachable .irq 0x1234
  have hnative : m.core.status.emulation = false := rfl
  have hbytes : m.core.interruptBytes 0x1234 saved =
      [m.core.pbr, highByte 0x1234, lowByte 0x1234, saved] := by
    rw [Registers.interruptBytes, hnative]
    rfl
  rw [hbytes] at hheld
  have hhigh := hheld 1 _ rfl
  have hlow := hheld 2 _ rfl
  have hpc := congrArg Registers.pc hregisters
  have hpointer := congrArg (fun r => r.stack.pointer) hregisters
  simp only [hnative, Bool.false_eq_true, if_false, hfourth] at hpointer
  simp only [hnext] at hpc
  rw [hfirst] at hhigh
  rw [hsecond] at hlow
  rw [hvector, hlow, hhigh, joinBytes_lowByte_highByte] at hpc
  exact ⟨hreachable, hplaces, hvector, hpc, hpointer⟩

end W65C816
