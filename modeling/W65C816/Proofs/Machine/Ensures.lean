import W65C816.Machine.Execute

/-!
# What actions ensure

`Action.Ensures P p Q` is a triple: from a core with `P`, the action `p` gives a result and a core
with `Q`. Only the core is spoken of, so a triple holds on every bus.

* Triples go through `pure`, `>>=` and `if`.
* Accesses to the bus keep everything (`Action.Keeps`), and so does all that only reads, such as
  `Action.locate`. Pushes and pulls keep what does not depend on where the stack is.
* Operands that are read or pulled fit their width.
-/

namespace W65C816

namespace Action

variable {B α β : Type} {P P' : Core → Prop}

/-- From a core with `P`, the action gives a result and a core with `Q`. -/
structure Ensures (P : Core → Prop) (p : Action B α) (Q : α → Core → Prop) : Prop where
  run : ∀ {m : Machine B}, P m.core → Q (p.run m).1 (p.run m).2.core

/-- If `P` holds before the action, it holds afterwards. -/
abbrev Keeps (P : Core → Prop) (p : Action B α) : Prop :=
  Ensures P p fun _ => P

/-! ## Rules -/

namespace Ensures

variable {Q Q' : α → Core → Prop}

/-- Giving a value changes no core, so the condition on it has to follow from what held before. -/
theorem pure {v : α} (h : ∀ c, P c → Q v c) : Ensures P (Pure.pure v : Action B α) Q :=
  ⟨fun hP => h _ hP⟩

/-- What the first part ensures is what the second may start from, for the value that it is given.
    -/
theorem bind {R : β → Core → Prop} {p : Action B α} {f : α → Action B β} (hp : Ensures P p Q)
    (hf : ∀ v, Ensures (Q v) (f v) R) : Ensures P (p >>= f) R := by
  refine ⟨fun {m} hP => ?_⟩
  have hQ := hp.run hP
  exact (hf _).run hQ

/-- A choice ensures what both its ways ensure. -/
theorem ite {c : Prop} [Decidable c] {p q : Action B α} (hp : Ensures P p Q)
    (hq : Ensures P q Q) : Ensures P (if c then p else q) Q := by
  by_cases hc : c
  · rw [if_pos hc]
    exact hp
  · rw [if_neg hc]
    exact hq

/-- Something that is done in one case only, before the rest is done in both. -/
theorem optional {R : β → Core → Prop} {c : Prop} [Decidable c] {p : Action B α}
    {q : Action B β} (hp : Keeps P p) (hq : Ensures P q R) :
    Ensures P (if c then p >>= fun _ => q else q) R :=
  .ite (hp.bind fun _ => hq) hq

/-- Less may be said of what an action ensures. -/
theorem imp {p : Action B α} (h : Ensures P p Q) (hQ : ∀ v c, Q v c → Q' v c) :
    Ensures P p Q' :=
  ⟨fun hP => hQ _ _ (h.run hP)⟩

/-- What is known about a result does not depend on the core. -/
theorem assuming {F : Prop} {p : Action B α} (h : F → Ensures P p Q) :
    Ensures (fun c => F ∧ P c) p Q :=
  ⟨fun hFP => (h hFP.1).run hFP.2⟩

end Ensures

/-! ## The core -/

/-- The registers that are looked up are those of the core, and still are until it changes. -/
theorem registers_ensures :
    Ensures P (registers : Action B Registers) fun r c => c.toRegisters = r ∧ P c :=
  ⟨fun hP => ⟨rfl, hP⟩⟩

theorem registers_keeps : Keeps P (registers : Action B Registers) :=
  ⟨fun hP => hP⟩

theorem core_keeps : Keeps P (core : Action B Core) :=
  ⟨fun hP => hP⟩

/-- A change to the core is its own rule: what holds afterwards has to follow from what held before.
    -/
theorem changeCore_ensures {f : Core → Core} (h : ∀ c, P c → P' (f c)) :
    Ensures P (changeCore f : Action B Unit) fun _ => P' :=
  ⟨fun hP => h _ hP⟩

/-- A change to the registers, with the rest of the core left alone. -/
theorem changeRegisters_ensures {f : Registers → Registers}
    (h : ∀ c, P c → P' (c.mapRegisters f)) :
    Ensures P (changeRegisters f : Action B Unit) fun _ => P' :=
  changeCore_ensures h

/-! ## The bus -/

section

variable [Bus B]

/-- The bus is no part of the core, so an access changes nothing there. -/
theorem read_keeps (a : Address) : Keeps P (read a : Action B UInt8) :=
  ⟨fun hP => hP⟩

theorem write_keeps (a : Address) (v : UInt8) : Keeps P (write a v : Action B Unit) :=
  ⟨fun hP => hP⟩

theorem readWord_keeps (a : Address) : Keeps P (readWord a : Action B UInt16) :=
  ⟨fun hP => hP⟩

theorem writeWord_keeps (a : Address) (v : UInt16) : Keeps P (writeWord a v : Action B Unit) :=
  ⟨fun hP => hP⟩

theorem readWordInBank_keeps (a : Address) : Keeps P (readWordInBank a : Action B UInt16) :=
  ⟨fun hP => hP⟩

theorem writeWordInBank_keeps (a : Address) (v : UInt16) :
    Keeps P (writeWordInBank a v : Action B Unit) :=
  ⟨fun hP => hP⟩

/-- Pointers are read from the bus, and nothing is done with them yet. -/
theorem readPointerInBank_keeps (a : Address) :
    Keeps P (readPointerInBank a : Action B Address) :=
  ⟨fun hP => hP⟩

/-! ## Operands -/

/-- Fetching an operand does not move the program counter. It goes on at the end, past the whole
    instruction. -/
theorem operandByte_keeps : Keeps P (operandByte : Action B UInt8) :=
  registers_keeps.bind fun r => read_keeps r.operandAddress

theorem operandWord_keeps : Keeps P (operandWord : Action B UInt16) :=
  registers_keeps.bind fun r => readWordInBank_keeps r.operandAddress

theorem operandLong_keeps : Keeps P (operandLong : Action B Address) :=
  registers_keeps.bind fun r => readPointerInBank_keeps r.operandAddress

/-- In emulation mode the pointer may wrap in its page. That is another way to read it, and no more.
    -/
theorem directPointer_keeps (a : Address) : Keeps P (directPointer a : Action B UInt16) := by
  refine registers_keeps.bind fun r => .ite ?_ ?_
  · refine (read_keeps a).bind fun low => ?_
    exact (read_keeps _).bind fun high => .pure fun c hP => hP
  · exact readWordInBank_keeps a

/-- Nothing changes in the core while an effective address is found. -/
theorem locate_keeps (mode : Mode) : Keeps P (locate mode : Action B Located) := by
  refine registers_keeps.bind fun r => ?_
  -- One case for each way to find an operand. All of them read and compute, and none stores
  -- anything.
  cases mode with
  | implied | accumulator | stackImplied | interrupt => exact .pure fun c hP => hP
  | immediate | relative | relativeLong | blockMove | stackAbsolute
  | stackProgramCounterRelative => exact .pure fun c hP => hP
  | absolute | absoluteX | absoluteY =>
      exact operandWord_keeps.bind fun offset => .pure fun c hP => hP
  | absoluteLong | absoluteLongX =>
      exact operandLong_keeps.bind fun target => .pure fun c hP => hP
  | absoluteIndirect | absoluteIndexedIndirect =>
      refine operandWord_keeps.bind fun place => ?_
      exact (readWordInBank_keeps _).bind fun offset => .pure fun c hP => hP
  | absoluteIndirectLong =>
      refine operandWord_keeps.bind fun place => ?_
      exact (readPointerInBank_keeps _).bind fun target => .pure fun c hP => hP
  | direct | stackDirectIndirect | directX | directY | stackRelative =>
      exact operandByte_keeps.bind fun displacement => .pure fun c hP => hP
  | directIndirect | directIndexedIndirect | directIndirectIndexed =>
      refine operandByte_keeps.bind fun displacement => ?_
      exact (directPointer_keeps _).bind fun offset => .pure fun c hP => hP
  | directIndirectLong | directIndirectLongIndexed =>
      refine operandByte_keeps.bind fun displacement => ?_
      exact (readPointerInBank_keeps _).bind fun target => .pure fun c hP => hP
  | stackRelativeIndirectIndexed =>
      refine operandByte_keeps.bind fun displacement => ?_
      exact (readWordInBank_keeps _).bind fun offset => .pure fun c hP => hP

/-- What is read at a width fits this width, since a byte is extended with zeros. -/
theorem readData_ensures (a : Address) (mode : Mode) (w : Width) :
    Ensures P (readData a mode w : Action B UInt16) fun v c => w.Fits v ∧ P c := by
  have hword : ∀ (v : UInt16) (c : Core), P c → Width.word.Fits v ∧ P c := by
    intro v c hP
    exact ⟨Width.fits_word v, hP⟩
  cases w with
  | byte =>
      exact (read_keeps a).bind fun v => .pure fun c hP => ⟨Width.fits_toUInt16 .byte v, hP⟩
  | word =>
      refine .ite ?_ ?_
      · exact (readWordInBank_keeps a).imp hword
      · exact (readWord_keeps a).imp hword

theorem writeData_keeps (a : Address) (mode : Mode) (w : Width) (v : UInt16) :
    Keeps P (writeData a mode w v : Action B Unit) := by
  cases w with
  | byte => exact write_keeps a (lowByte v)
  | word => exact .ite (writeWordInBank_keeps a v) (writeWord_keeps a v)

/-- An operand fits its width, whether it comes right after the opcode or from elsewhere in
    memory. -/
theorem readOperand_ensures (mode : Mode) (w : Width) :
    Ensures P (readOperand mode w : Action B (UInt16 × Bool)) fun p c => w.Fits p.1 ∧ P c := by
  cases mode with
  | immediate =>
      cases w with
      | byte =>
          refine operandByte_keeps.bind fun v => .pure fun c hP => ?_
          exact ⟨Width.fits_toUInt16 .byte v, hP⟩
      | word =>
          refine operandWord_keeps.bind fun v => .pure fun c hP => ?_
          exact ⟨Width.fits_word v, hP⟩
  | _ =>
      refine (locate_keeps _).bind fun place => ?_
      exact (readData_ensures place.address _ w).bind fun v => .pure fun c hP => hP

end

/-! ## The stack -/

section

variable [Bus B] (hP : ∀ c v, P c → P { c with stack := c.stack.relocate v })

include hP

/-- A push moves the stack pointer. What is to be kept has to allow that, which is the hypothesis of
    this section. -/
theorem pushByte_keeps (v : UInt8) : Keeps P (pushByte v : Action B Unit) :=
  ⟨fun h => hP _ _ h⟩

theorem pushWord_keeps (v : UInt16) : Keeps P (pushWord v : Action B Unit) := by
  refine ⟨fun {m} h => ?_⟩
  have hhigh := hP m.core (m.core.stack.pointer - 1) h
  exact hP { m.core with stack := m.core.stack.lowered } _ hhigh

/-- Registers are pushed by one or two bytes, depending on their width. -/
theorem push_keeps (w : Width) (v : UInt16) : Keeps P (push w v : Action B Unit) := by
  cases w with
  | byte => exact pushByte_keeps hP (lowByte v)
  | word => exact pushWord_keeps hP v

theorem pullByte_keeps : Keeps P (pullByte : Action B UInt8) :=
  ⟨fun h => hP _ _ h⟩

theorem pullWord_keeps : Keeps P (pullWord : Action B UInt16) := by
  refine ⟨fun {m} h => ?_⟩
  have hlow := hP m.core (m.core.stack.pointer + 1) h
  exact hP { m.core with stack := m.core.stack.raised 1 } _ hlow

/-- What is pulled at a width fits this width. -/
theorem pull_ensures (w : Width) :
    Ensures P (pull w : Action B UInt16) fun v c => w.Fits v ∧ P c := by
  cases w with
  | byte => exact ⟨fun h => ⟨Width.fits_toUInt16 .byte _, hP _ _ h⟩⟩
  | word => exact ⟨fun h => ⟨Width.fits_word _, (pullWord_keeps hP).run h⟩⟩

end

end Action

end W65C816
