import W65C816.Machine.Execute
import W65C816.Proofs.Machine.Return
import W65C816.Proofs.Traffic

/-!
# Actions on flat memory

On flat memory a reading leaves no trace at all, so an effective address can be found without the
rest of the machine noticing. What is written changes the places that it is written to.

* `Action.Looks` are the actions that only look. Their results depend on registers and memory, and
  `Action.Looks.bind_run` takes them off the front of a program.
* `Action.Spares` says that an action changes memory at none but some places. What does not write
  spares all.
-/

namespace W65C816

namespace Memory

theorem bus_readPointerInBank (m : Memory) (a : Address) : (Bus.readPointerInBank m a).2 = m := by
  rw [Bus.readPointerInBank]
  split
  · rfl
  · exact m.bus_readWordInBank a

/-- A byte that is written changes no other place. -/
theorem get_set_of_ne (m : Memory) {a b : Address} (h : b ≠ a) (v : UInt8) :
    (m.set a v).get b = m.get b := by
  rw [get_set, if_neg h.symm]

theorem get_set_set_of_not_mem (m : Memory) {a b x : Address} (h : x ∉ [a, b]) (v w : UInt8) :
    ((m.set a v).set b w).get x = m.get x := by
  simp only [List.mem_cons, List.not_mem_nil, or_false, not_or] at h
  rw [get_set_of_ne _ h.2, get_set_of_ne _ h.1]

/-- The two bytes of a word that has been written to different places. -/
theorem map_get_set_set (m : Memory) {a b : Address} (h : b ≠ a) (v : UInt16) :
    [a, b].map ((m.set a (lowByte v)).set b (highByte v)).get = wordBytes v := by
  have hlow : ((m.set a (lowByte v)).set b (highByte v)).get a = lowByte v := by
    rw [get_set_of_ne _ h.symm, get_set, if_pos rfl]
  have hhigh : ((m.set a (lowByte v)).set b (highByte v)).get b = highByte v := by
    rw [get_set, if_pos rfl]
  rw [List.map_cons, List.map_singleton, hlow, hhigh]
  rfl

/-- A word that stays in its bank, whichever way it is written. -/
theorem bus_writeWordInBank (m : Memory) (a : Address) (v : UInt16) :
    Bus.writeWordInBank m a v = (m.set a (lowByte v)).set (a.inBank 1) (highByte v) := by
  rw [Bus.writeWordInBank]
  split
  · rfl
  · rename_i hend
    rw [← Address.onward_one_eq_inBank hend]
    rfl

end Memory

namespace Action

variable {α β : Type}

/-! ## Looking -/

/-- Nothing changes, and the result follows from the registers and the memory. -/
structure Looks (p : Action Memory α) : Prop where
  still : ∀ m, (p.run m).2 = m
  value : ∀ {m m' : Machine Memory}, m'.core.toRegisters = m.core.toRegisters → m'.bus = m.bus →
    (p.run m').1 = (p.run m).1

namespace Looks

theorem pure (v : α) : Looks (Pure.pure v) :=
  ⟨fun _ => rfl, fun _ _ => rfl⟩

/-- What follows a look finds the same machine. -/
theorem bind_run {p : Action Memory α} (hp : Looks p) (f : α → Action Memory β)
    (m : Machine Memory) : (p >>= f).run m = (f (p.run m).1).run m :=
  congrArg (f (p.run m).1).run (hp.still m)

/-- Looks that follow on each other are a look. -/
theorem bind {p : Action Memory α} {f : α → Action Memory β} (hp : Looks p)
    (hf : ∀ v, Looks (f v)) : Looks (p >>= f) where
  still m := by
    rw [hp.bind_run]
    exact (hf _).still m
  value hregisters hbus := by
    rw [hp.bind_run, hp.bind_run, hp.value hregisters hbus]
    exact (hf _).value hregisters hbus

theorem ite {c : Prop} [Decidable c] {p q : Action Memory α} (hp : Looks p) (hq : Looks q) :
    Looks (if c then p else q) := by
  by_cases hc : c
  · rw [if_pos hc]
    exact hp
  · rw [if_neg hc]
    exact hq

end Looks

/-- Registers are what a look is allowed to depend on. -/
theorem registers_looks : Looks registers :=
  ⟨fun _ => rfl, fun hregisters _ => hregisters⟩

/-- Flat memory is not changed by reading. -/
theorem read_looks (a : Address) : Looks (read a) :=
  ⟨fun _ => rfl, fun _ hbus => congrArg (·.get a) hbus⟩

theorem readWord_looks (a : Address) : Looks (readWord a) :=
  ⟨fun _ => rfl, fun _ hbus => congrArg (fun b : Memory => (Bus.readWord b a).1) hbus⟩

theorem readWordInBank_looks (a : Address) : Looks (readWordInBank a) where
  still m := congrArg (Machine.mk m.core) (m.bus.bus_readWordInBank a)
  value _ hbus := congrArg (fun b : Memory => (Bus.readWordInBank b a).1) hbus

theorem readPointerInBank_looks (a : Address) : Looks (readPointerInBank a) where
  still m := congrArg (Machine.mk m.core) (m.bus.bus_readPointerInBank a)
  value _ hbus := congrArg (fun b : Memory => (Bus.readPointerInBank b a).1) hbus

/-- The place of an operand is in the registers, and its value in the memory. -/
theorem operandByte_looks : Looks operandByte :=
  registers_looks.bind fun r => read_looks r.operandAddress

theorem operandWord_looks : Looks operandWord :=
  registers_looks.bind fun r => readWordInBank_looks r.operandAddress

theorem operandLong_looks : Looks operandLong :=
  registers_looks.bind fun r => readPointerInBank_looks r.operandAddress

/-- Whether a pointer wraps in its page is in the registers too. -/
theorem directPointer_looks (a : Address) : Looks (directPointer a) := by
  refine registers_looks.bind fun r => .ite ?_ ?_
  · refine (read_looks a).bind fun low => ?_
    exact (read_looks _).bind fun high => .pure _
  · exact readWordInBank_looks a

/-- An effective address is found by looking. -/
theorem locate_looks (mode : Mode) : Looks (locate mode) := by
  refine registers_looks.bind fun r => ?_
  -- The cases follow `locate`. An indirect mode looks twice, for the pointer and for where it
  -- points.
  cases mode with
  | implied | accumulator | stackImplied | interrupt => exact .pure _
  | immediate | relative | relativeLong | blockMove | stackAbsolute
  | stackProgramCounterRelative => exact .pure _
  | absolute | absoluteX | absoluteY => exact operandWord_looks.bind fun offset => .pure _
  | absoluteLong | absoluteLongX => exact operandLong_looks.bind fun target => .pure _
  | absoluteIndirect | absoluteIndexedIndirect =>
      refine operandWord_looks.bind fun place => ?_
      exact (readWordInBank_looks _).bind fun offset => .pure _
  | absoluteIndirectLong =>
      refine operandWord_looks.bind fun place => ?_
      exact (readPointerInBank_looks _).bind fun target => .pure _
  | direct | stackDirectIndirect | directX | directY | stackRelative =>
      exact operandByte_looks.bind fun displacement => .pure _
  | directIndirect | directIndexedIndirect | directIndirectIndexed =>
      refine operandByte_looks.bind fun displacement => ?_
      exact (directPointer_looks _).bind fun offset => .pure _
  | directIndirectLong | directIndirectLongIndexed =>
      refine operandByte_looks.bind fun displacement => ?_
      exact (readPointerInBank_looks _).bind fun target => .pure _
  | stackRelativeIndirectIndexed =>
      refine operandByte_looks.bind fun displacement => ?_
      exact (readWordInBank_looks _).bind fun offset => .pure _

/-- Waking the core does not change where its operand is. -/
theorem locate_wake (mode : Mode) (m : Machine Memory) :
    ((locate mode).run { m with core := m.core.wake }).1 = ((locate mode).run m).1 :=
  (locate_looks mode).value rfl rfl

/-- The mode tells which neighbour the second byte of a word is in. -/
theorem readData_looks (a : Address) (mode : Mode) (w : Width) : Looks (readData a mode w) := by
  cases w with
  | byte => exact (read_looks a).bind fun v => .pure _
  | word => exact .ite (readWordInBank_looks a) (readWord_looks a)

/-- An operand comes right after the opcode or from where it is located. -/
theorem readOperand_looks (mode : Mode) (w : Width) : Looks (readOperand mode w) := by
  cases mode with
  | immediate =>
      cases w with
      | byte => exact operandByte_looks.bind fun v => .pure _
      | word => exact operandWord_looks.bind fun v => .pure _
  | _ =>
      refine (locate_looks _).bind fun place => ?_
      exact (readData_looks place.address _ w).bind fun v => .pure _

/-! ## Writing -/

variable {places : List Address}

/-- Memory is the same afterwards but at some places. -/
structure Spares (places : List Address) (p : Action Memory α) : Prop where
  get : ∀ (m : Machine Memory) {a}, a ∉ places → (p.run m).2.bus.get a = m.bus.get a

/-- Who only looks spares every place. -/
theorem Looks.spares {p : Action Memory α} (hp : Looks p) : Spares places p := by
  refine ⟨fun m {a} _ => ?_⟩
  rw [hp.still m]

namespace Spares

/-- A sequence spares what both its parts spare. -/
theorem bind {p : Action Memory α} {f : α → Action Memory β} (hp : Spares places p)
    (hf : ∀ v, Spares places (f v)) : Spares places (p >>= f) :=
  ⟨fun m _ ha => ((hf _).get (p.run m).2 ha).trans (hp.get m ha)⟩

theorem ite {c : Prop} [Decidable c] {p q : Action Memory α} (hp : Spares places p)
    (hq : Spares places q) : Spares places (if c then p else q) := by
  by_cases hc : c
  · rw [if_pos hc]
    exact hp
  · rw [if_neg hc]
    exact hq

/-- What comes first may spare a place for reasons of its own. -/
theorem andThen {p : Action Memory α} {f : α → Action Memory β} (hf : ∀ v, Spares places (f v))
    {m : Machine Memory} {a : Address} (ha : a ∉ places)
    (hp : (p.run m).2.bus.get a = m.bus.get a) :
    ((p >>= f).run m).2.bus.get a = m.bus.get a :=
  ((hf _).get (p.run m).2 ha).trans hp

end Spares

/-- What is done in the core spares all of memory. -/
theorem changeCore_spares (f : Core → Core) : Spares places (changeCore f) :=
  ⟨fun _ _ _ => rfl⟩

theorem changeRegisters_spares (f : Registers → Registers) : Spares places (changeRegisters f) :=
  changeCore_spares _

theorem charge_spares (n : UInt64) : Spares places (charge n) :=
  changeCore_spares _

theorem goTo_spares (pc : UInt16) : Spares places (goTo pc) :=
  changeRegisters_spares _

/-- Going on to the next instruction does not write. -/
theorem retire_spares (i : Instruction) (r : Registers) (penalty : UInt64) :
    Spares places (retire i r penalty) :=
  (charge_spares _).bind fun _ => changeRegisters_spares _

theorem arrive_spares (reach : Reach) (target : Address) : Spares places (arrive reach target) := by
  cases reach with
  | near => exact goTo_spares _
  | far => exact changeRegisters_spares _

/-- Pulls read the stack and move its pointer. -/
theorem pullByte_spares : Spares places pullByte :=
  ⟨fun _ _ _ => rfl⟩

theorem pullWord_spares : Spares places pullWord :=
  ⟨fun _ _ _ => rfl⟩

theorem pull_spares (w : Width) : Spares places (pull w) := by
  cases w with
  | byte => exact ⟨fun _ _ _ => rfl⟩
  | word => exact pullWord_spares

/-- Branches read their distance and jump. -/
theorem branch_spares (i : Instruction) (taken : Bool) : Spares places (branch i taken) := by
  refine registers_looks.spares.bind fun r => ?_
  refine operandByte_looks.spares.bind fun distance => .ite ?_ ?_
  · exact (charge_spares _).bind fun _ => goTo_spares _
  · exact (charge_spares _).bind fun _ => goTo_spares _

end Action

end W65C816
