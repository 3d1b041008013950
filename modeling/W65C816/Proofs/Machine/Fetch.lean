import W65C816.Proofs.Machine.Entry
import W65C816.Proofs.Traffic

/-!
# The bytes of an instruction

How long an instruction is, is said in three places: by the operands that its mode reads, by the
program counter when it is done, and by a trace. They agree, for every opcode and all flags.

* `Instruction.fetches` is what the table has to keep for that: an effect that needs an operand goes
  with a mode that has one. Breaks and `WDM` have a byte that nobody reads.
* `Action.execute_begins` says that the operand is fetched first, and `Instruction.yields_next` says
  where the program goes on.
* `Machine.traffic` is what crosses the bus in the next step. The results about it are put together
  for plain memory, where what is read is known.
-/

namespace W65C816

/-! ## Modes and effects that go together -/

namespace Instruction

/-- True if the effect of an instruction needs every byte after the opcode, and the mode provides as
    many as the length of the instruction says. -/
def fetches (i : Instruction) : Bool :=
  match i.effect with
  | .read size _ => if i.mode = .immediate then i.operation.immediateSize = size else i.mode.locates
  | .write _ _ | .alter _ | .jump _ | .call _ => i.mode.locates
  | .mask _ => i.mode = .immediate ∧ i.operation.immediateSize = .byte
  | .pushOperand _ =>
      i.mode ∈ [.stackAbsolute, .stackProgramCounterRelative, .stackDirectIndirect]
  | .branch _ => i.mode = .relative
  | .branchLong => i.mode = .relativeLong
  | .moveBlock _ => i.mode = .blockMove
  | .adjust _ | .push _ _ | .pull _ _ | .finishCall _ | .finishInterrupt | .wait | .stop =>
      i.mode ∈ [.implied, .accumulator, .stackImplied]
  | .interrupt _ => false

/-- Checked over the table: modes and effects go together as `fetches` has it. -/
theorem fetches_of_mem :
    ∀ i ∈ table.toList, i.operation ∉ [.brk, .cop, .wdm] → i.fetches = true := by
  decide +kernel

/-- Only immediate operands have a size that depends on the flags. -/
theorem size_of_ne_immediate {i : Instruction} (h : i.mode ≠ .immediate) (s : Status) :
    i.size s = i.mode.size :=
  if_neg fun hboth => h hboth.1

end Instruction

namespace Action

variable {B : Type}

theorem changeRegisters_grows (f : Registers → Registers) :
    Grows (changeRegisters f : Action (Recorded B) Unit) :=
  .of_agree fun _ => changeRegisters_agree f

theorem charge_grows (n : UInt64) : Grows (charge n : Action (Recorded B) Unit) :=
  .of_agree fun _ => charge_agree n

theorem retire_grows (i : Instruction) (r : Registers) (penalty : UInt64) :
    Grows (retire i r penalty : Action (Recorded B) Unit) :=
  .of_agree fun _ => retire_agree i r penalty

theorem arrive_grows (reach : Reach) (target : Address) :
    Grows (arrive reach target : Action (Recorded B) Unit) :=
  .of_agree fun _ => arrive_agree reach target

variable [Bus B] {r : Registers}

theorem readData_grows (a : Address) (mode : Mode) (w : Width) :
    Grows (readData a mode w : Action (Recorded B) _) :=
  .of_agree fun l => readData_agree (Recorded.growing l) a mode w

theorem writeData_grows (a : Address) (mode : Mode) (w : Width) (v : UInt16) :
    Grows (writeData a mode w v : Action (Recorded B) _) :=
  .of_agree fun l => writeData_agree (Recorded.growing l) a mode w v

theorem pushWord_grows (v : UInt16) : Grows (pushWord v : Action (Recorded B) _) :=
  .of_agree fun l => pushWord_agree (Recorded.growing l) v

/-! ## Instructions -/

/-- An operand that is not immediate is located and then read. -/
theorem readOperand_eq {mode : Mode} (hmode : mode ≠ .immediate) (w : Width) :
    (readOperand mode w : Action B _) = do
      let place ← locate mode
      let v ← readData place.address mode w
      return (v, place.crossed) := by
  cases mode with
  | immediate => exact absurd rfl hmode
  | _ => rfl

/-- An operand that follows the opcode is as long as the length of the instruction says. -/
theorem readOperand_begins {i : Instruction} {size : OperandSize}
    (h : if i.mode = .immediate then i.operation.immediateSize = size else i.mode.locates = true) :
    Begins r (r.operandPlaces ((i.size r.status).toNat - 1))
      (readOperand i.mode (size.width r.status) : Action (Recorded B) _) := by
  by_cases hmode : i.mode = .immediate
  · rw [if_pos hmode] at h
    obtain rfl := h
    cases hw : i.operation.immediateSize.width r.status with
    | byte =>
        have hsize : i.size r.status = 2 := by simp [Instruction.size, hmode, hw, Mode.size]
        rw [hsize, hmode]
        exact operandByte_fetches.begins.bind fun v => pure_grows _
    | word =>
        have hsize : i.size r.status = 3 := by
          simp [Instruction.size, hmode, hw, Mode.size]
        rw [hsize, hmode]
        exact operandWord_fetches.begins.bind fun v => pure_grows _
  · rw [if_neg hmode] at h
    rw [Instruction.size_of_ne_immediate hmode, readOperand_eq hmode]
    refine (locate_begins h).bind fun place => ?_
    exact (readData_grows _ _ _).bind fun v => pure_grows _

theorem alterOperand_begins {mode : Mode} (h : mode.locates = true) (w : Width)
    (change : UInt16 → Registers → UInt16 × Status) :
    Begins r (r.operandPlaces (mode.size.toNat - 1))
      (alterOperand mode w change : Action (Recorded B) Unit) := by
  refine .ite ?_ ?_
  · rintro rfl
    exact (changeRegisters_grows _).begins
  · intro _
    refine (locate_begins h).bind fun place => ?_
    refine (readData_grows _ _ _).bind fun v => ?_
    refine (Grows.of_agree fun _ => registers_agree).bind fun r => ?_
    exact (changeRegisters_grows _).bind fun _ => writeData_grows _ _ _ _

theorem read_fetches (a : Address) : Fetches r [a] (read a : Action (Recorded B) UInt8) :=
  ⟨fun _ _ => rfl⟩

theorem readWordInBank_fetches (a : Address) :
    Fetches r [a, a.inBank 1] (readWordInBank a : Action (Recorded B) UInt16) := by
  refine ⟨fun m _ => ?_⟩
  rw [← m.bus.bus_readWordInBank]
  rfl

/-- Where the operand is what follows the opcode, nothing has to be read to find it. -/
theorem locate_operand_begins {α : Type} {l : List Address} {mode : Mode}
    (hmode : mode = .stackAbsolute ∨ mode = .stackProgramCounterRelative)
    {f : Located → Action (Recorded B) α} (hf : Begins r l (f (.fixed r.operandAddress))) :
    Begins r l (locate mode >>= f) := by
  rcases hmode with rfl | rfl
  · exact registers_begins (f := fun r => f (.fixed r.operandAddress)) hf
  · exact registers_begins (f := fun r => f (.fixed r.operandAddress)) hf

theorem moveBytes_grows (direction : Direction) (source destination : UInt8) (cycles : UInt64)
    (n : Nat) :
    Grows (moveBytes direction source destination cycles n : Action (Recorded B) Unit) :=
  .of_agree fun l => moveBytes_agree (Recorded.growing l) direction source destination cycles n

/-- A block move fetches both banks before it moves anything. -/
theorem moveBlock_begins (i : Instruction) (direction : Direction) :
    Begins r (r.operandPlaces 2) (moveBlock i direction : Action (Recorded B) Unit) := by
  refine registers_begins ?_
  change Begins r ([r.operandAddress] ++ [r.programAddress.inBank 2]) _
  refine (read_fetches r.operandAddress).bind fun destination => ?_
  refine (read_fetches _).begins.bind fun source => ?_
  refine (changeRegisters_grows _).bind fun _ => ?_
  exact (moveBytes_grows _ _ _ _ _).bind fun _ => changeRegisters_grows _

/-- The distance is fetched whether the branch is taken or not. -/
theorem branch_begins (i : Instruction) (taken : Bool) :
    Begins r (r.operandPlaces 1) (branch i taken : Action (Recorded B) Unit) := by
  refine registers_begins ?_
  refine operandByte_fetches.begins.bind fun distance => .of_agree fun _ => .ite ?_ ?_
  · exact (charge_agree _).bind fun _ => goTo_agree _
  · exact (charge_agree _).bind fun _ => goTo_agree _

/-- Every byte of an instruction is fetched, in order, before anything else happens. -/
theorem execute_begins {i : Instruction} (h : i.fetches = true) :
    Begins r (r.operandPlaces ((i.size r.status).toNat - 1))
      (execute i : Action (Recorded B) Unit) := by
  have hsize : i.mode ≠ .immediate → i.size r.status = i.mode.size :=
    fun hmode => Instruction.size_of_ne_immediate hmode r.status
  have hlocates : i.mode.locates = true → i.size r.status = i.mode.size := by
    intro hmode
    refine hsize ?_
    intro heq
    rw [heq] at hmode
    exact nomatch hmode
  have hgrows : Grows (execute i : Action (Recorded B) Unit) :=
    .of_agree fun l => execute_agree (Recorded.growing l) i
  -- Without an operand nothing has to be fetched, and the record only has to grow.
  have hshort : i.mode ∈ [.implied, .accumulator, .stackImplied] →
      Begins r (r.operandPlaces ((i.size r.status).toNat - 1))
        (execute i : Action (Recorded B) Unit) := by
    intro hmode
    have hone : i.size r.status = 1 := by
      simp only [List.mem_cons, List.not_mem_nil, or_false] at hmode
      rcases hmode with hmode | hmode | hmode <;> simp [Instruction.size, hmode, Mode.size]
    rw [hone]
    exact hgrows.begins
  -- What the table keeps and what an instruction does branch on the effect alike.
  unfold Instruction.fetches at h
  unfold execute at hshort ⊢
  generalize i.effect = e at h hshort ⊢
  cases e with
  | adjust change => exact hshort (by simpa using h)
  | push size value => exact hshort (by simpa using h)
  | pull size absorb => exact hshort (by simpa using h)
  | finishCall reach => exact hshort (by simpa using h)
  | finishInterrupt => exact hshort (by simpa using h)
  | wait => exact hshort (by simpa using h)
  | stop => exact hshort (by simpa using h)
  | interrupt source => exact nomatch h
  | read size absorb =>
      refine registers_begins ?_
      refine (readOperand_begins (by simpa using h)).bind fun p => ?_
      exact (changeRegisters_grows _).bind fun _ => retire_grows i r _
  | write size value =>
      rw [hlocates h]
      refine registers_begins ?_
      refine (locate_begins h).bind fun place => ?_
      exact (writeData_grows _ _ _ _).bind fun _ => retire_grows i r _
  | alter change =>
      rw [hlocates h]
      refine registers_begins ?_
      refine (alterOperand_begins h _ _).bind fun _ => .of_agree fun _ => ?_
      exact .ite (retire_agree i r _) (retire_agree i r _)
  | mask change =>
      obtain ⟨hmode, hbyte⟩ : i.mode = .immediate ∧ i.operation.immediateSize = .byte := by
        simpa using h
      have htwo : i.size r.status = 2 := by
        simp [Instruction.size, hmode, hbyte, OperandSize.width, Mode.size]
      rw [htwo]
      refine registers_begins ?_
      refine operandByte_fetches.begins.bind fun bits => ?_
      exact (changeRegisters_grows _).bind fun _ => retire_grows i r 0
  | pushOperand value =>
      have hmode : i.mode = .stackAbsolute ∨ i.mode = .stackProgramCounterRelative ∨
          i.mode = .stackDirectIndirect := by simpa using h
      have hpush : ∀ v, Grows (do
          pushWord (value r v)
          retire i r (r.directPenalty i.mode.usesDirectPage) : Action (Recorded B) Unit) :=
        fun v => (pushWord_grows _).bind fun _ => retire_grows i r _
      rw [hsize (by rcases hmode with hmode | hmode | hmode <;> rw [hmode] <;> nofun)]
      refine registers_begins ?_
      rw [← or_assoc] at hmode
      -- Two of the three modes fetch the operand as a word. The third one locates it by a byte.
      rcases hmode with hmode | hmode
      · have htwo : i.mode.size = 3 := by rcases hmode with hmode | hmode <;> rw [hmode] <;> rfl
        rw [htwo]
        have hread : Fetches r (r.operandPlaces 2)
            (readWordInBank r.operandAddress : Action (Recorded B) UInt16) := by
          rw [operandPlaces_two]
          exact readWordInBank_fetches _
        exact locate_operand_begins hmode (hread.begins.bind hpush)
      · rw [hmode] at hpush ⊢
        refine (locate_begins rfl).bind fun place => ?_
        exact (readWordInBank_grows _).bind hpush
  | branch taken =>
      have hmode : i.mode = .relative := by simpa using h
      rw [hsize (by rw [hmode]; nofun), hmode]
      exact registers_begins (branch_begins i _)
  | branchLong =>
      have hmode : i.mode = .relativeLong := by simpa using h
      rw [hsize (by rw [hmode]; nofun), hmode]
      refine registers_begins ?_
      refine operandWord_fetches.begins.bind fun distance => .of_agree fun _ => ?_
      exact (goTo_agree _).bind fun _ => charge_agree _
  | jump reach =>
      rw [hlocates h]
      refine registers_begins ?_
      refine (locate_begins h).bind fun place => ?_
      exact (arrive_grows reach _).bind fun _ => charge_grows _
  | call reach =>
      rw [hlocates h]
      refine registers_begins ?_
      refine (locate_begins h).bind fun place => .of_agree fun l => ?_
      refine .optional (pushByte_agree (Recorded.growing l) r.pbr) ?_
      refine (pushWord_agree (Recorded.growing l) _).bind fun _ => ?_
      exact (arrive_agree reach _).bind fun _ => charge_agree _
  | moveBlock direction =>
      have hmode : i.mode = .blockMove := by simpa using h
      rw [hsize (by rw [hmode]; nofun), hmode]
      exact registers_begins (moveBlock_begins i direction)

end Action

/-! ## The next instruction -/

namespace Instruction

/-- The operations after which the program goes on elsewhere. -/
def leaps (i : Instruction) : Prop :=
  i.operation ∈ [.bcc, .bcs, .beq, .bne, .bmi, .bpl, .bvc, .bvs, .bra, .brl, .jmp, .jml, .jsr, .jsl,
    .rts, .rtl, .rti, .brk, .cop]

instance (i : Instruction) : Decidable i.leaps :=
  inferInstanceAs (Decidable (i.operation ∈ _))

/-- The program goes on at the next instruction, unless the operation says otherwise. -/
theorem yields_next (i : Instruction) (hi : ¬ i.leaps) {n : UInt16} {r r' : Registers}
    (h : i.effect.Yields n r r') : r'.programAddress = r.programAddress.inBank n := by
  have hset : ∀ (r : Registers) v, (r.setAccumulator v).programAddress = r.programAddress := by
    intro r v
    rw [Registers.setAccumulator]
    cases r.status.accumulatorWidth with
    | byte => rfl
    | word => rfl
  have hskip : ∀ r' : Registers, r'.programAddress = r.programAddress →
      (r'.skip n).programAddress = r.programAddress.inBank n := by
    intro r' hr
    rw [← hr]
    rfl
  obtain ⟨operation, mode, baseCycles⟩ := i
  -- Instructions that do not leap leave the program counter to `skip`, so it is enough that nothing
  -- else touches it or the bank.
  cases operation with
  | bcc | bcs | beq | bne | bmi | bpl | bvc | bvs | bra | brl | jmp | jml | jsr | jsl | rts | rtl
  | rti | brk | cop => exact absurd (by simp [leaps]) hi
  | adc | sbc | and | ora | eor | lda =>
      obtain ⟨v, -, rfl⟩ := h
      exact hskip _ (hset _ _)
  | cmp | cpx | cpy | ldx | ldy =>
      obtain ⟨v, -, rfl⟩ := h
      exact hskip _ rfl
  | bit =>
      obtain ⟨v, -, rfl⟩ := h
      refine hskip _ ?_
      cases decide (mode = .immediate) with
      | true => rfl
      | false => rfl
  | tsb | trb | asl | lsr | rol | ror | inc | dec =>
      obtain ⟨now, ⟨v, rfl⟩ | rfl, rfl⟩ := h
      · exact hskip _ rfl
      · exact hskip _ (hset _ _)
  | txa | tya =>
      obtain rfl := h
      exact hskip _ (hset _ _)
  | sta | stx | sty | stz | nop | wdm | wai | stp | inx | iny | dex | dey | tax | tay | tsx | txs
  | txy | tyx | tcd | tdc | tcs | tsc | xba | xce | clc | sec | cli | sei | cld | sed | clv =>
      obtain rfl := h
      exact hskip _ rfl
  | rep | sep =>
      obtain ⟨v, rfl⟩ := h
      exact hskip _ rfl
  | pha | phx | phy | php | phb | phd | phk | pea | pei | per =>
      obtain ⟨s, rfl⟩ := h
      exact hskip _ rfl
  | pla =>
      obtain ⟨s, v, -, rfl⟩ := h
      exact hskip _ (hset _ _)
  | plx | ply | plb | pld | plp =>
      obtain ⟨s, v, -, rfl⟩ := h
      exact hskip _ rfl
  | mvn | mvp =>
      obtain ⟨destination, a, x, y, rfl⟩ := h
      exact hskip _ rfl

end Instruction

/-! ## Traffic of a step -/

/-- The address that a byte has been read from. -/
def Access.readFrom : Access → Option Address
  | read a _ => some a
  | write _ _ => none

namespace Recorded

/-- Plain memory answers with what it holds, and only the record grows. -/
theorem afterReads_memory (b : Recorded Memory) (l : List Address) :
    b.afterReads l =
      ⟨b.bus, (l.map fun a => .read a (b.bus.get a)).reverse ++ b.accesses⟩ := by
  induction l generalizing b with
  | nil => rfl
  | cons a l ih =>
      have hread : b.afterReads (a :: l) =
          afterReads ⟨b.bus, .read a (b.bus.get a) :: b.accesses⟩ l := rfl
      rw [hread, ih]
      simp

/-- What is pushed is written, and nothing is read. -/
theorem reads_pushAll {B : Type} [Bus B] (s : Stack) (b : Recorded B) (l : List UInt8) :
    (s.pushAll b l).2.accesses.filterMap Access.readFrom =
      b.accesses.filterMap Access.readFrom := by
  induction l generalizing s b with
  | nil => rfl
  | cons v l ih => exact ih s.lowered (Bus.write b s.address v)

theorem reads_afterReads {B : Type} [Bus B] (b : Recorded B) (l : List Address) :
    (b.afterReads l).accesses.filterMap Access.readFrom =
      l.reverse ++ b.accesses.filterMap Access.readFrom := by
  induction l generalizing b with
  | nil => rfl
  | cons a l ih =>
      have hread : (Bus.read b a).2.accesses.filterMap Access.readFrom =
          a :: b.accesses.filterMap Access.readFrom := rfl
      have hrest := ih (Bus.read b a).2
      rw [hread] at hrest
      rw [List.reverse_cons, List.append_assoc]
      exact hrest

end Recorded

namespace Machine

variable {B : Type} [Bus B]

/-- The machine with its bus recorded from now on. -/
def recorded (m : Machine B) : Machine (Recorded B) :=
  { core := m.core, bus := .fresh m.bus }

/-- The bytes that cross the bus in the next step, the first one first. -/
def traffic (m : Machine B) : List Access :=
  m.recorded.step.machine.bus.accesses.reverse

variable {m : Machine B}

/-- The addresses that the next step reads at, the first one first. -/
def reads (m : Machine B) : List Address :=
  m.traffic.filterMap Access.readFrom

/-- A step that carries out an instruction fetches the opcode first. -/
theorem bus_step_instruction (h : m.core.decide m.irqLine = .instruction) :
    m.step.machine.bus = ((Action.execute m.fetched).run
      ⟨m.core.wake, (Bus.read m.bus m.core.programAddress).2⟩).2.bus := by
  rw [step_eq_advance h, machine_account, machine_advance]

end Machine

/-- An instruction has an opcode. -/
theorem Instruction.one_le_size (i : Instruction) (s : Status) : 1 ≤ (i.size s).toNat := by
  rw [size]
  cases i.mode <;> split <;> decide

theorem Instruction.size_le_four (i : Instruction) (s : Status) : (i.size s).toNat ≤ 4 := by
  rw [size]
  split
  · rename_i himmediate
    rw [himmediate.1]
    decide
  · cases i.mode <;> decide

namespace Registers

/-- The opcode comes first, and the operand after it. -/
theorem instructionPlaces_eq (r : Registers) {n : Nat} (hn : 1 ≤ n) :
    r.instructionPlaces n = r.programAddress :: r.operandPlaces (n - 1) := by
  obtain ⟨k, rfl⟩ : ∃ k, n = k + 1 := ⟨n - 1, by omega⟩
  have hfirst : r.programAddress.inBank (UInt16.ofNat 0) = r.programAddress :=
    congrArg (Address.mk r.pbr) (UInt16.add_zero r.pc)
  rw [instructionPlaces, List.range_succ_eq_map, List.map_cons, List.map_map, hfirst]
  rfl

end Registers

/-- A trace shows the bytes of the instruction, all of them. -/
theorem TraceLine.bytes_capture {B : Type} [Bus B] (c : Core) (b : B) :
    let size := (Instruction.ofOpcode (Bus.peek b c.programAddress)).size c.status
    (capture c b).opcode :: (capture c b).operands =
      (c.toRegisters.instructionPlaces size.toNat).map (Bus.peek b) := by
  intro size
  rw [Registers.instructionPlaces_eq _ (Instruction.one_le_size _ _), Registers.operandPlaces,
    List.map_cons, List.map_map]
  rfl

namespace Machine

variable {m : Machine Memory}

/-- What crosses the bus is the opcode and then what the instruction makes of it. -/
theorem traffic_instruction (h : m.core.decide m.irqLine = .instruction) :
    m.traffic = ((Action.execute m.fetched).run ⟨m.core.wake, Recorded.afterReads (.fresh m.bus)
      [m.core.programAddress]⟩).2.bus.accesses.reverse := by
  rw [traffic, bus_step_instruction (m := m.recorded) h]
  rfl

/-- The bytes of an instruction cross the bus in order, before anything else does. -/
theorem traffic_fetches (h : m.core.decide m.irqLine = .instruction)
    (hi : m.fetched.operation ∉ [.brk, .cop, .wdm]) :
    ((m.core.toRegisters.instructionPlaces (m.fetched.size m.core.status).toNat).map
      fun a => Access.read a (m.bus.get a)) <+: m.traffic := by
  have hfetches := Instruction.fetches_of_mem m.fetched (Instruction.ofOpcode_mem _) hi
  have hbegins := (Action.execute_begins (B := Memory) (r := m.core.toRegisters) hfetches).run
    ⟨m.core.wake, Recorded.afterReads (.fresh m.bus) [m.core.programAddress]⟩ rfl
  -- The opcode has been read before the instruction begins, and it is the first of the places.
  have hall : (((Recorded.fresh m.bus).afterReads [m.core.programAddress]).afterReads
      (m.core.toRegisters.operandPlaces ((m.fetched.size m.core.status).toNat - 1))).accesses =
        ((m.core.toRegisters.instructionPlaces (m.fetched.size m.core.status).toNat).map
          fun a => Access.read a (m.bus.get a)).reverse := by
    rw [← Recorded.afterReads_append, List.singleton_append,
      ← Registers.instructionPlaces_eq _ (Instruction.one_le_size _ _), Recorded.afterReads_memory]
    exact List.append_nil _
  rw [hall] at hbegins
  rw [traffic_instruction h, ← List.reverse_suffix, List.reverse_reverse]
  exact hbegins

/-- Of `WDM`, nothing but the opcode crosses the bus. -/
theorem traffic_wdm (h : m.core.decide m.irqLine = .instruction)
    (hi : m.fetched.operation = .wdm) :
    m.traffic = [.read m.core.programAddress (m.bus.get m.core.programAddress)] := by
  have heffect : m.fetched.effect = .adjust id := by
    rw [Instruction.effect, hi]
  rw [traffic_instruction h]
  unfold Action.execute
  rw [heffect]
  rfl

/-- A break reads its opcode and its vector. -/
theorem reads_break (h : m.core.decide m.irqLine = .instruction)
    (hi : m.fetched.operation ∈ [.brk, .cop]) :
    ∃ source, m.fetched.effect = .interrupt source ∧
      let vector : Address := ⟨0, m.core.vectors.location source m.core.status.emulation⟩
      m.reads = [m.core.programAddress, vector, vector.inBank 1] := by
  obtain ⟨source, heffect⟩ := Instruction.effect_of_break hi
  refine ⟨source, heffect, ?_⟩
  intro vector
  rw [reads, traffic_instruction h, Action.interrupt_run heffect, Action.enterInterrupt_run,
    List.filterMap_reverse]
  simp only
  rw [Recorded.bus_readWordInBank, Recorded.reads_afterReads, Recorded.reads_pushAll,
    Recorded.reads_afterReads]
  rfl

/-- The program goes on right after the instruction. -/
theorem programAddress_step {B : Type} [Bus B] {m : Machine B}
    (h : m.core.decide m.irqLine = .instruction) (hi : ¬ m.fetched.leaps) :
    m.step.machine.core.programAddress =
      m.core.programAddress.inBank (m.fetched.size m.core.status) := by
  obtain ⟨r, hyields, hregisters, -⟩ := step_instruction h
  rw [← Instruction.yields_next m.fetched hi hyields, ← hregisters]

end Machine

end W65C816
