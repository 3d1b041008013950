import W65C816.Proofs.Machine.Reachable
import W65C816.Proofs.Machine.Spares

/-!
# What a step writes to

A step of a machine on flat memory changes few bytes, and where they are follows from the state
before it: the operand at the effective address, bytes below the stack pointer, or a block.

* `Footprint` tells these apart. `Instruction.footprint` says which instruction has which, and
  `Machine.writeSet` lists the places.
* There is a lemma for each kind of footprint: `Action.execute_spares`, `Action.execute_operand`,
  `Action.execute_pushes` and `Action.execute_block`.
* `step_writes_write_set` is what follows for a step.
-/

namespace W65C816

/-! ## Footprints -/

/-- What a step writes to. -/
inductive Footprint where
  | nothing
  /-- The operand at the effective address. -/
  | operand (w : Width)
  /-- The next bytes of the stack. -/
  | pushes (n : Nat)
  /-- A block of bytes. -/
  | block
  deriving DecidableEq, Repr

/-- How many bytes an interrupt pushes. -/
def Status.frameSize (s : Status) : Nat :=
  if s.emulation then 3 else 4

/-- What an instruction writes to. -/
def Instruction.footprint (i : Instruction) (s : Status) : Footprint :=
  match i.operation with
  | .sta | .stz => .operand s.accumulatorWidth
  | .stx | .sty => .operand s.indexWidth
  | .asl | .lsr | .rol | .ror | .inc | .dec | .tsb | .trb =>
      if i.mode = .accumulator then .nothing else .operand s.accumulatorWidth
  | .pha => .pushes s.accumulatorWidth.bytes
  | .phx | .phy => .pushes s.indexWidth.bytes
  | .php | .phb | .phk => .pushes 1
  | .phd | .pea | .pei | .per | .jsr => .pushes 2
  | .jsl => .pushes 3
  | .brk | .cop => .pushes s.frameSize
  | .mvn | .mvp => .block
  | _ => .nothing

/-- What an effect writes to. -/
def Effect.footprint (mode : Mode) (s : Status) : Effect → Footprint
  | write size _ => .operand (size.width s)
  | alter _ => if mode = .accumulator then .nothing else .operand s.accumulatorWidth
  | push size _ => .pushes (size.width s).bytes
  | pushOperand _ => .pushes 2
  | call .near => .pushes 2
  | call .far => .pushes 3
  | interrupt _ => .pushes s.frameSize
  | moveBlock _ => .block
  | _ => .nothing

theorem Instruction.footprint_eq (i : Instruction) (s : Status) :
    i.footprint s = i.effect.footprint i.mode s := by
  obtain ⟨operation, mode, baseCycles⟩ := i
  cases operation <;> rfl

/-- The places of an operand. In some modes the second byte wraps in bank 0, and in the others it
    is the next one of the whole space. -/
def Mode.operandPlaces (mode : Mode) (a : Address) : Width → List Address
  | .byte => [a]
  | .word => [a, if mode ∈ [.direct, .directX, .directY, .stackRelative] then ⟨0, a.offset + 1⟩
      else a.onward 1]

/-- The modes that the processor takes to wrap in bank 0 are those listed for `operandPlaces`. -/
theorem Mode.wrapsInBankZero_iff (mode : Mode) :
    mode.wrapsInBankZero = true ↔ mode ∈ [Mode.direct, .directX, .directY, .stackRelative] := by
  cases mode with
  | direct | directX | directY | stackRelative => exact ⟨fun _ => by decide, fun _ => rfl⟩
  | _ => exact ⟨nofun, fun h => absurd h (by decide)⟩

/-- The offset that comes `k` places after another one in a direction. -/
def Direction.after : Direction → UInt16 → Nat → UInt16
  | up, v, k => v + UInt16.ofNat k
  | down, v, k => v - UInt16.ofNat k

theorem Direction.after_zero (direction : Direction) (v : UInt16) : direction.after v 0 = v := by
  cases direction with
  | up => exact UInt16.add_zero v
  | down => exact UInt16.sub_zero v

/-- An index register that wraps at every byte gets to the same place. -/
theorem Width.truncate_after (w : Width) (direction : Direction) (v : UInt16) (k : Nat) :
    w.truncate (direction.after (w.truncate (direction.next v)) k) =
      w.truncate (direction.after v (k + 1)) := by
  apply UInt16.toNat_inj.mp
  cases direction with
  | up =>
      simp only [Direction.after, Direction.next, Width.toNat_truncate, UInt16.toNat_add,
        UInt16.toNat_ofNat', UInt16.reduceToNat]
      cases w with
      | byte => simp only [Width.modulus]; omega
      | word => simp only [Width.modulus]; omega
  | down =>
      simp only [Direction.after, Direction.next, Width.toNat_truncate, UInt16.toNat_sub,
        UInt16.toNat_ofNat', UInt16.reduceToNat]
      cases w with
      | byte => simp only [Width.modulus]; omega
      | word => simp only [Width.modulus]; omega

namespace Registers

/-- An index register that has been cut to its width stays as it is. -/
theorem indexed_indexed (r : Registers) (v : UInt16) : r.indexed (r.indexed v) = r.indexed v :=
  Width.truncate_of_fits (Width.fits_truncate _ v)

/-- An index register that is cut at every byte ends up as if it had been cut at the end. -/
theorem indexed_after_next (r : Registers) (direction : Direction) (v : UInt16) (k : Nat) :
    r.indexed (direction.after (r.indexed (direction.next v)) k) =
      r.indexed (direction.after v (k + 1)) :=
  Width.truncate_after _ _ _ _

/-- The stack pointer after `n` bytes have been pushed. In emulation mode it stays on page 1. -/
def pointerBelow (r : Registers) (n : Nat) : UInt16 :=
  if r.status.emulation then 0x100 + (r.stack.pointer - UInt16.ofNat n) % 0x100
  else r.stack.pointer - UInt16.ofNat n

/-- The places of the next `n` bytes that are pushed, the first one first. -/
def pushPlaces (r : Registers) (n : Nat) : List Address :=
  (List.range n).map fun k => ⟨0, r.pointerBelow k⟩

/-- The places that a block goes to in a bank. There is one for each count of the accumulator, down
    to zero, from Y on. -/
def blockPlaces (r : Registers) (direction : Direction) (bank : UInt8) : List Address :=
  (List.range (r.a.toNat + 1)).map fun k => ⟨bank, r.indexed (direction.after r.y k)⟩

end Registers

/-- The bytes that are pushed go to the places below the stack. -/
theorem Registers.Sound.place_mem {r : Registers} (h : r.Sound) {k n : Nat} (hk : k < n) :
    r.stack.place k ∈ r.pushPlaces n := by
  refine List.mem_map.mpr ⟨k, List.mem_range.mpr hk, ?_⟩
  rw [Registers.pointerBelow, ← h.confined]
  rfl

namespace Machine

/-- What the next step writes to. -/
def footprint (m : Machine Memory) : Footprint :=
  match m.core.decide m.irqLine with
  | .idle => .nothing
  | .interrupt _ => .pushes m.core.status.frameSize
  | .instruction => m.fetched.footprint m.core.status

/-- The places that the next step may change. -/
def writeSet (m : Machine Memory) : List Address :=
  match m.footprint with
  | .nothing => []
  | .operand w => m.fetched.mode.operandPlaces (m.effectiveAddress m.fetched.mode).result w
  | .pushes n => m.core.pushPlaces n
  | .block => m.core.blockPlaces (if m.fetched.operation = .mvn then .up else .down)
      (m.bus.get m.core.operandAddress)

end Machine

namespace Action

/-! ## Operands -/

/-- The modes whose operands wrap in bank 0 are there. -/
theorem bank_locate {mode : Mode} (h : mode.wrapsInBankZero = true) (m : Machine Memory) :
    ((locate mode).run m).1.address.bank = 0 := by
  have hdirect : ∀ displacement index,
      (m.core.directAddress displacement index).bank = 0 := by
    intro displacement index
    rw [Registers.directAddress]
    split
    · rfl
    · rfl
  cases mode with
  | direct | directX | directY => exact hdirect _ _
  | stackRelative => rfl
  | _ => exact nomatch h

/-- A word goes to two places, whichever they are. -/
theorem writeData_word {mode : Mode} {a : Address} (ha : mode.wrapsInBankZero = true → a.bank = 0)
    (v : UInt16) (m : Machine Memory) :
    ∃ b ≠ a, mode.operandPlaces a .word = [a, b] ∧
      ((writeData a mode .word v).run m).2.bus = (m.bus.set a (lowByte v)).set b (highByte v) := by
  by_cases hmode : mode.wrapsInBankZero = true
  · have hrun : ((writeData a mode .word v).run m).2.bus = Bus.writeWordInBank m.bus a v := by
      rw [writeData, if_pos hmode]
      rfl
    refine ⟨a.inBank 1, a.inBank_one_ne, ?_, ?_⟩
    · rw [Mode.operandPlaces, if_pos (mode.wrapsInBankZero_iff.mp hmode), Address.inBank, ha hmode]
    · rw [hrun, Memory.bus_writeWordInBank]
  · refine ⟨a.onward 1, a.onward_one_ne, ?_, ?_⟩
    · rw [Mode.operandPlaces, if_neg (mt mode.wrapsInBankZero_iff.mpr hmode)]
    · rw [writeData, if_neg hmode]
      rfl

/-- Writing an operand changes its places and no others. In the modes that wrap, the operand is in
    bank 0. -/
theorem writeData_spares {mode : Mode} {a : Address}
    (ha : mode.wrapsInBankZero = true → a.bank = 0) (w : Width) (v : UInt16) :
    Spares (mode.operandPlaces a w) (writeData a mode w v) := by
  refine ⟨fun m {x} hx => ?_⟩
  cases w with
  | byte => exact m.bus.get_set_of_ne (List.ne_of_not_mem_cons hx) _
  | word =>
      obtain ⟨b, -, hplaces, hrun⟩ := writeData_word ha v m
      rw [hplaces] at hx
      rw [hrun]
      exact m.bus.get_set_set_of_not_mem hx _ _

/-! ## Instructions -/

variable {i : Instruction} {places : List Address}

/-- Most instructions write nothing. -/
theorem execute_spares {s : Status} (h : i.effect.footprint i.mode s = .nothing) :
    Spares places (execute i : Action Memory Unit) := by
  unfold execute
  refine registers_looks.spares.bind fun r => ?_
  generalize i.effect = e at h
  -- Effects that write are excluded by their footprint. The others look and change the core.
  cases e with
  | write _ _ | push _ _ | pushOperand _ | interrupt _ | moveBlock _ => exact nomatch h
  | call reach => cases reach <;> exact nomatch h
  | read size absorb =>
      refine (readOperand_looks _ _).spares.bind fun v => ?_
      exact (changeRegisters_spares _).bind fun _ => retire_spares i r _
  | alter change =>
      by_cases hmode : i.mode = .accumulator
      · simp only [alterOperand, if_pos hmode]
        exact (changeRegisters_spares _).bind fun _ => retire_spares i r _
      · rw [Effect.footprint, if_neg hmode] at h
        exact nomatch h
  | adjust change => exact (changeRegisters_spares _).bind fun _ => retire_spares i r _
  | mask change =>
      refine operandByte_looks.spares.bind fun bits => ?_
      exact (changeRegisters_spares _).bind fun _ => retire_spares i r _
  | pull size absorb =>
      refine (pull_spares _).bind fun v => ?_
      exact (changeRegisters_spares _).bind fun _ => retire_spares i r _
  | branch taken => exact branch_spares i _
  | branchLong =>
      refine operandWord_looks.spares.bind fun distance => ?_
      exact (goTo_spares _).bind fun _ => charge_spares _
  | jump reach =>
      refine (locate_looks _).spares.bind fun place => ?_
      exact (arrive_spares _ _).bind fun _ => charge_spares _
  | finishCall reach =>
      refine pullWord_spares.bind fun offset => ?_
      cases reach with
      | near =>
          refine (Looks.pure _).spares.bind fun bank => ?_
          exact (arrive_spares _ _).bind fun _ => charge_spares _
      | far =>
          refine pullByte_spares.bind fun bank => ?_
          exact (arrive_spares _ _).bind fun _ => charge_spares _
  | finishInterrupt =>
      refine pullByte_spares.bind fun bits => ?_
      refine (changeRegisters_spares _).bind fun _ => ?_
      refine pullWord_spares.bind fun offset => .ite ?_ ?_
      · exact (goTo_spares _).bind fun _ => charge_spares _
      · refine pullByte_spares.bind fun bank => ?_
        exact (arrive_spares _ _).bind fun _ => charge_spares _
  | wait => exact (changeCore_spares _).bind fun _ => retire_spares i r 0
  | stop => exact (changeCore_spares _).bind fun _ => retire_spares i r 0

/-- An operand in memory is found and read, then flags change, and then it is written back. -/
theorem alterOperand_run {mode : Mode} (hmode : mode ≠ .accumulator) (w : Width)
    (change : UInt16 → Registers → UInt16 × Status) (m : Machine Memory) :
    let a := ((locate mode).run m).1.address
    let changed := change ((readData a mode w).run m).1 m.core.toRegisters
    (alterOperand mode w change).run m = (writeData a mode w changed.1).run
      { m with core := m.core.mapRegisters fun r => { r with status := changed.2 } } := by
  intro a changed
  rw [alterOperand, if_neg hmode, (locate_looks mode).bind_run, (readData_looks _ _ _).bind_run,
    registers_looks.bind_run]
  rfl

/-- Altering an operand in memory changes the places where it has been found. -/
theorem alterOperand_get {mode : Mode} (hmode : mode ≠ .accumulator) (w : Width)
    (change : UInt16 → Registers → UInt16 × Status) (m : Machine Memory) {a : Address}
    (ha : a ∉ mode.operandPlaces ((locate mode).run m).1.address w) :
    ((alterOperand mode w change).run m).2.bus.get a = m.bus.get a := by
  rw [alterOperand_run hmode]
  exact (writeData_spares (fun h => bank_locate h m) w _).get _ ha

/-- An operand is written to its places at the effective address. -/
theorem execute_operand {w : Width} (m : Machine Memory)
    (h : i.effect.footprint i.mode m.core.status = .operand w) {a : Address}
    (ha : a ∉ i.mode.operandPlaces ((locate i.mode).run m).1.address w) :
    ((execute i).run m).2.bus.get a = m.bus.get a := by
  unfold execute
  rw [registers_looks.bind_run]
  generalize i.effect = e at h
  cases e with
  | read _ _ | adjust _ | mask _ | push _ _ | pull _ _ | pushOperand _ | branch _ | branchLong
  | jump _ | finishCall _ | finishInterrupt | interrupt _ | moveBlock _ | wait | stop =>
      exact nomatch h
  | call reach => cases reach <;> exact nomatch h
  | write size value =>
      obtain rfl := Footprint.operand.inj h
      simp only
      rw [(locate_looks _).bind_run]
      refine Spares.get ?_ m ha
      refine (writeData_spares (fun hmode => bank_locate hmode m) _ _).bind fun _ => ?_
      exact retire_spares i m.core.toRegisters _
  | alter change =>
      by_cases hmode : i.mode = .accumulator
      · rw [Effect.footprint, if_pos hmode] at h
        exact nomatch h
      · rw [Effect.footprint, if_neg hmode] at h
        obtain rfl := Footprint.operand.inj h
        refine Spares.andThen (fun _ => ?_) ha (alterOperand_get hmode _ _ m ha)
        exact .ite (retire_spares i _ _) (retire_spares i _ _)

/-! ## Pushes -/

/-- All that has happened to stack and memory is that some bytes have been pushed. -/
def Pushed (m : Machine Memory) (l : List UInt8) (after : Machine Memory) : Prop :=
  after.core.stack = (m.core.stack.pushAll m.bus l).1 ∧ after.bus = (m.core.stack.pushAll m.bus l).2

/-- The bytes of an operand, in the order in which they are pushed. -/
def operandBytes (v : UInt16) : Width → List UInt8
  | .byte => [lowByte v]
  | .word => [highByte v, lowByte v]

theorem execute_push {size : OperandSize} {value : Registers → UInt16}
    (h : i.effect = .push size value) (m : Machine Memory) :
    Pushed m (operandBytes (value m.core.toRegisters) (size.width m.core.status))
      ((execute i).run m).2 := by
  unfold execute
  rw [registers_looks.bind_run, h]
  have hstatus : ((registers : Action Memory Registers).run m).1.status = m.core.status := rfl
  simp only [hstatus]
  cases size.width m.core.status with
  | byte => exact ⟨rfl, rfl⟩
  | word => exact ⟨rfl, rfl⟩

/-- A call pushes the address of its last byte, and before that its bank if it leaves it. -/
theorem execute_call {reach : Reach} (h : i.effect = .call reach) (m : Machine Memory) :
    Pushed m ((if reach = .far then [m.core.pbr] else []) ++
      operandBytes (m.core.pc + i.mode.size - 1) .word) ((execute i).run m).2 := by
  unfold execute
  rw [registers_looks.bind_run, h]
  simp only
  rw [(locate_looks _).bind_run]
  cases reach with
  | near => exact ⟨rfl, rfl⟩
  | far => exact ⟨rfl, rfl⟩

/-- Entering an interrupt pushes a frame, which has the program bank in native mode only. -/
theorem enterInterrupt_pushes (source : Interrupt) (returnTo : UInt16) (m : Machine Memory) :
    ∃ l, l.length = m.core.status.frameSize ∧
      Pushed m l ((enterInterrupt source returnTo).run m).2 := by
  rw [enterInterrupt_run]
  refine ⟨frame m.core.toRegisters source returnTo, ?_, rfl, Memory.bus_readWordInBank _ _⟩
  rw [frame, Status.frameSize]
  cases m.core.status.emulation with
  | true => rfl
  | false => rfl

/-- An instruction pushes as many bytes as its footprint says. -/
theorem execute_pushes {n : Nat} (m : Machine Memory)
    (h : i.effect.footprint i.mode m.core.status = .pushes n) :
    ∃ l, l.length = n ∧ Pushed m l ((execute i).run m).2 := by
  cases he : i.effect with
  | read _ _ | write _ _ | adjust _ | mask _ | pull _ _ | branch _ | branchLong | jump _
  | finishCall _ | finishInterrupt | moveBlock _ | wait | stop =>
      rw [he] at h
      exact nomatch h
  | alter change =>
      rw [he, Effect.footprint] at h
      split at h
      · exact nomatch h
      · exact nomatch h
  | push size value =>
      rw [he] at h
      obtain rfl := Footprint.pushes.inj h
      refine ⟨_, ?_, execute_push he m⟩
      cases size.width m.core.status with
      | byte => rfl
      | word => rfl
  | pushOperand value =>
      rw [he] at h
      obtain rfl := Footprint.pushes.inj h
      unfold execute
      rw [registers_looks.bind_run, he]
      simp only
      rw [(locate_looks _).bind_run, (readWordInBank_looks _).bind_run]
      exact ⟨[highByte _, lowByte _], rfl, rfl, rfl⟩
  | call reach =>
      rw [he] at h
      refine ⟨_, ?_, execute_call he m⟩
      cases reach with
      | near => exact Footprint.pushes.inj h
      | far => exact Footprint.pushes.inj h
  | interrupt source =>
      rw [he] at h
      obtain rfl := Footprint.pushes.inj h
      rw [interrupt_run he]
      exact enterInterrupt_pushes source _ m

namespace Pushed

variable {m after : Machine Memory} {l : List UInt8}

/-- The stack has moved down by one place for each byte. -/
theorem pointer (h : Pushed m l after) (hm : m.core.Sound) :
    after.core.stack.pointer = m.core.pointerBelow l.length := by
  rw [h.1, Stack.pushAll_stack hm.homed, Registers.pointerBelow, ← hm.confined]
  rfl

/-- Only the places that have been pushed to may have changed. -/
theorem get (h : Pushed m l after) (hm : m.core.Sound) {a : Address}
    (ha : a ∉ m.core.pushPlaces l.length) : after.bus.get a = m.bus.get a := by
  rw [h.2]
  refine Stack.get_pushAll_of_ne hm.homed m.bus ?_
  rintro k hk rfl
  exact ha (hm.place_mem hk)

end Pushed

/-! ## Blocks -/

section Blocks

variable (direction : Direction) (source destination : UInt8) (cycles : UInt64)

/-- The machine after the first byte of a block. -/
def afterByte {B : Type} [Bus B] (m : Machine B) : Machine B :=
  ((moveByte direction source destination cycles).run m).2

variable {direction source destination cycles} {m : Machine Memory}

@[simp] theorem x_afterByte : (afterByte direction source destination cycles m).core.x =
    m.core.indexed (direction.next m.core.x) := rfl

@[simp] theorem y_afterByte : (afterByte direction source destination cycles m).core.y =
    m.core.indexed (direction.next m.core.y) := rfl

@[simp] theorem indexed_afterByte (v : UInt16) :
    (afterByte direction source destination cycles m).core.indexed v = m.core.indexed v := rfl

theorem bus_afterByte : (afterByte direction source destination cycles m).bus =
    m.bus.set ⟨destination, m.core.y⟩ (m.bus.get ⟨source, m.core.x⟩) := rfl

/-- The places of a block go on from the place of its first byte. -/
theorem moveBytes_get (n : Nat) (hy : m.core.indexed m.core.y = m.core.y) {a : Address}
    (ha : ∀ k, k < n → a ≠ ⟨destination, m.core.indexed (direction.after m.core.y k)⟩) :
    ((moveBytes direction source destination cycles n).run m).2.bus.get a = m.bus.get a := by
  induction n generalizing m with
  | zero => rfl
  | succ n ih =>
      have hfirst := ha 0 (Nat.succ_pos n)
      rw [Direction.after_zero, hy] at hfirst
      refine (ih (m := afterByte direction source destination cycles m) ?_ ?_).trans ?_
      · simp only [y_afterByte, indexed_afterByte, Registers.indexed_indexed]
      · intro k hk
        simp only [y_afterByte, indexed_afterByte, Registers.indexed_after_next]
        exact ha (k + 1) (Nat.succ_lt_succ hk)
      · rw [bus_afterByte, Memory.get_set_of_ne _ hfirst]

end Blocks

/-- A block move reads its two banks, moves the block, and goes on to the next instruction. -/
theorem execute_moveBlock {direction : Direction} (h : i.effect = .moveBlock direction)
    (m : Machine Memory) :
    let source := m.bus.get (m.core.programAddress.inBank 2)
    let destination := m.bus.get m.core.operandAddress
    let first := { m with core := m.core.mapRegisters fun r => { r with dbr := destination } }
    let last := ((moveBytes direction source destination i.baseCycles.toUInt64
      (m.core.a.toNat + 1)).run first).2
    ((execute i).run m).2 =
      { last with
        core := last.core.mapRegisters fun r => { r with pc := r.pc + i.size m.core.status } } := by
  unfold execute
  rw [registers_looks.bind_run, h]
  simp only
  unfold moveBlock
  rw [registers_looks.bind_run, (read_looks _).bind_run, (read_looks _).bind_run]
  rfl

/-- A block goes to its places in the bank that the first operand byte names. -/
theorem execute_block {direction : Direction} (h : i.effect = .moveBlock direction)
    (m : Machine Memory) (hm : m.core.Sound) {a : Address}
    (ha : a ∉ m.core.blockPlaces direction (m.bus.get m.core.operandAddress)) :
    ((execute i).run m).2.bus.get a = m.bus.get a := by
  have hy : m.core.indexed m.core.y = m.core.y := Width.truncate_of_fits hm.y
  rw [execute_moveBlock h]
  refine moveBytes_get (m := { m with core := m.core.mapRegisters fun r =>
    { r with dbr := m.bus.get m.core.operandAddress } }) (m.core.a.toNat + 1) hy ?_
  rintro k hk rfl
  exact ha (List.mem_map.mpr ⟨k, List.mem_range.mpr hk, rfl⟩)

end Action

/-! ## Steps -/

/-- The direction of a block move follows from its operation. -/
theorem Instruction.direction_eq {i : Instruction} {direction : Direction}
    (h : i.effect = .moveBlock direction) :
    direction = if i.operation = .mvn then .up else .down := by
  obtain ⟨operation, mode, baseCycles⟩ := i
  cases operation with
  | mvn | mvp => exact (Effect.moveBlock.inj h).symm
  | _ => exact nomatch h

theorem Effect.moveBlock_of_footprint {e : Effect} {mode : Mode} {s : Status}
    (h : e.footprint mode s = .block) : ∃ direction, e = .moveBlock direction := by
  cases e with
  | moveBlock direction => exact ⟨direction, rfl⟩
  | call reach => cases reach <;> exact nomatch h
  | alter change =>
      rw [footprint] at h
      split at h
      · exact nomatch h
      · exact nomatch h
  | _ => exact nomatch h

namespace Machine

variable {m : Machine Memory}

theorem footprint_of_instruction (h : m.core.decide m.irqLine = .instruction) :
    m.footprint = m.fetched.effect.footprint m.fetched.mode m.core.status := by
  rw [footprint, h]
  exact m.fetched.footprint_eq m.core.status

/-- A step that pushes does just that to stack and memory. -/
theorem step_pushes {n : Nat} (h : m.footprint = .pushes n) :
    ∃ l, l.length = n ∧ Action.Pushed m l m.step.machine := by
  cases hdecide : m.core.decide m.irqLine with
  | idle =>
      rw [footprint, hdecide] at h
      exact nomatch h
  | interrupt source =>
      rw [footprint, hdecide] at h
      obtain rfl := Footprint.pushes.inj h
      have hbefore : (m.core.wake.acknowledge source).toRegisters = m.core.toRegisters := by
        cases source with
        | abort | nmi | irq | brk | cop => rfl
      obtain ⟨l, hl, hstack, hbus⟩ := Action.enterInterrupt_pushes source
        (m.core.wake.acknowledge source).pc { m with core := m.core.wake.acknowledge source }
      simp only [hbefore] at hl hstack hbus
      obtain ⟨hmachine, -⟩ := step_interrupt_run hdecide
      rw [hmachine]
      simp only [hbefore]
      exact ⟨l, hl, hstack, hbus⟩
  | instruction =>
      rw [footprint_of_instruction hdecide] at h
      obtain ⟨l, hl, hstack, hbus⟩ := Action.execute_pushes { m with core := m.core.wake } h
      obtain ⟨hmachine, -⟩ := step_instruction_run hdecide
      rw [hmachine]
      exact ⟨l, hl, hstack, hbus⟩

/-- A step changes no place outside its write set. -/
theorem get_step (hm : m.core.Sound) {a : Address} (ha : a ∉ m.writeSet) :
    m.step.machine.bus.get a = m.bus.get a := by
  cases hdecide : m.core.decide m.irqLine with
  | idle => rw [step_idle hdecide]
  | interrupt source =>
      -- An interrupt that is served pushes its frame, whatever the instruction would have done.
      have hpushes : m.footprint = .pushes m.core.status.frameSize := by rw [footprint, hdecide]
      obtain ⟨l, hl, hpushed⟩ := step_pushes hpushes
      rw [writeSet, hpushes, ← hl] at ha
      exact hpushed.get hm ha
  | instruction =>
      obtain ⟨hmachine, -⟩ := step_instruction_run hdecide
      have hinstruction := footprint_of_instruction hdecide
      rw [writeSet] at ha
      -- For each kind of footprint there is a lemma on what it writes.
      cases hfootprint : m.footprint with
      | pushes n =>
          obtain ⟨l, rfl, hpushed⟩ := step_pushes hfootprint
          rw [hfootprint] at ha
          exact hpushed.get hm ha
      | nothing =>
          rw [hfootprint] at ha hinstruction
          rw [hmachine]
          exact (Action.execute_spares hinstruction.symm).get { m with core := m.core.wake } ha
      | operand w =>
          rw [hfootprint] at ha hinstruction
          rw [hmachine]
          refine Action.execute_operand { m with core := m.core.wake } hinstruction.symm ?_
          rw [Action.locate_wake]
          exact ha
      | block =>
          rw [hfootprint] at ha hinstruction
          obtain ⟨direction, heffect⟩ := Effect.moveBlock_of_footprint hinstruction.symm
          simp only [← Instruction.direction_eq heffect] at ha
          rw [hmachine]
          exact Action.execute_block heffect { m with core := m.core.wake } hm ha

end Machine

/-- A step changes nothing in memory outside its write set, whatever the instruction, the mode and
    the widths, or the interrupt that is served.

    * Stores and changes in memory reach the operand at the effective address, as it is before the
      step. Its second byte wraps in bank 0 in direct and stack-relative modes.
    * Pushes reach the next bytes of the stack, and the stack pointer has then moved down by their
      number. They are on page 1 in emulation mode, and always in bank 0.
    * Block moves reach the block, and everything else reaches nothing. -/
theorem step_writes_write_set {m : Machine Memory} (h : m.Reachable) :
    (∀ a, a ∉ m.writeSet → m.step.machine.bus.get a = m.bus.get a) ∧
      ∀ n, m.footprint = .pushes n →
        m.step.machine.core.stack.pointer = m.core.pointerBelow n ∧
          ∀ a ∈ m.writeSet, a.bank = 0 ∧
            (m.core.status.emulation = true → 0x100 ≤ a.offset ∧ a.offset ≤ 0x1FF) := by
  refine ⟨fun a ha => Machine.get_step h.sound ha, ?_⟩
  intro n hpushes
  constructor
  · obtain ⟨l, rfl, hpushed⟩ := Machine.step_pushes hpushes
    exact hpushed.pointer h.sound
  · intro a ha
    rw [Machine.writeSet, hpushes] at ha
    obtain ⟨k, -, rfl⟩ := List.mem_map.mp ha
    refine ⟨rfl, fun he => ?_⟩
    rw [Registers.pointerBelow, if_pos he]
    simp only [UInt16.le_iff_toNat_le, UInt16.toNat_add, UInt16.toNat_mod, UInt16.reduceToNat]
    omega

/-- A call in emulation mode whose return address wraps on page 1. -/
theorem wrapped_call_write_set :
    let m := (Machine.start (Memory.blank.load 0 [0x20, 0x00, 0x10]) .standard).machine
    let m := (m.perform (.setStackPointer 0x0100)).machine
    m.Reachable ∧ m.footprint = .pushes 2 ∧ m.writeSet = [⟨0, 0x0100⟩, ⟨0, 0x01FF⟩] ∧
      (∀ a, a ∉ [⟨0, 0x0100⟩, ⟨0, 0x01FF⟩] → m.step.machine.bus.get a = m.bus.get a) ∧
      m.step.machine.core.stack.pointer = 0x01FE := by
  intro m₀ m
  have hreachable : m.Reachable := (Machine.Reachable.start _ _).perform (.setStackPointer 0x0100)
  have hpushes : m.footprint = .pushes 2 := by decide +kernel
  have hplaces : m.writeSet = [⟨0, 0x0100⟩, ⟨0, 0x01FF⟩] := by decide +kernel
  have hbelow : m.core.pointerBelow 2 = 0x01FE := by decide +kernel
  obtain ⟨hget, hstack⟩ := step_writes_write_set hreachable
  rw [hplaces] at hget
  exact ⟨hreachable, hpushes, hplaces, hget, (hstack 2 hpushes).1.trans hbelow⟩

end W65C816
