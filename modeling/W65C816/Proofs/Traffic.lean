import W65C816.Bus.Recorded
import W65C816.Proofs.Machine.Agreement

/-!
# Traffic

A recorded bus shows in which order an action gets at its bytes. Most of what an action does to the
bus depends on what it finds there; what is said here is how the record *begins*.

* `Recorded.afterReads` is a bus after bytes have been read in a given order.
* `Action.Grows` says that a record is never shortened, `Action.Fetches` that an action does nothing
  but read at certain addresses, and `Action.Begins` that it reads there before anything else. The
  addresses depend on the registers only.
* `Action.locate_begins`: looking for an effective address begins with the bytes after the opcode.
-/

namespace W65C816

namespace Address

/-- As long as the bank goes on, both displacements lead to the same place. -/
theorem onward_eq_inBank {a : Address} {n : Nat} (h : a.offset.toNat + n < 0x10000) :
    a.onward (UInt32.ofNat n) = a.inBank (UInt16.ofNat n) := by
  have hb := a.bank.toNat_lt
  apply value_inj
  apply UInt32.toNat_inj.mp
  rw [toNat_value_onward_ofNat, toNat_value, toNat_value, spaceSize]
  simp only [inBank, UInt16.toNat_add, UInt16.toNat_ofNat']
  omega

/-- The neighbour of an address is in the same bank, unless the address is the last one there. -/
theorem onward_one_eq_inBank {a : Address} (h : a.offset ≠ 0xFFFF) : a.onward 1 = a.inBank 1 := by
  have hlt := a.offset.toNat_lt
  have hne : a.offset.toNat ≠ 0xFFFF := fun heq => h (UInt16.toNat_inj.mp heq)
  exact onward_eq_inBank (n := 1) (by omega)

end Address

namespace Recorded

variable {B : Type} [Bus B]

/-- The bus after bytes have been read at these addresses, one after the other. -/
def afterReads (b : Recorded B) (l : List Address) : Recorded B :=
  l.foldl (fun b a => (Bus.read b a).2) b

theorem afterReads_append (b : Recorded B) (l l' : List Address) :
    b.afterReads (l ++ l') = (b.afterReads l).afterReads l' :=
  List.foldl_append

/-- On a recorded bus, a word is read byte by byte, wherever it is in its bank. -/
theorem readWordInBank_eq (b : Recorded B) (a : Address) :
    Bus.readWordInBank b a =
      (joinBytes (Bus.read b a).1 (Bus.read (Bus.read b a).2 (a.inBank 1)).1,
        b.afterReads [a, a.inBank 1]) := by
  by_cases hend : a.offset = 0xFFFF
  · rw [Bus.readWordInBank, if_pos hend]
    rfl
  · rw [Bus.readWordInBank, if_neg hend, ← Address.onward_one_eq_inBank hend]
    rfl

theorem bus_readWordInBank (b : Recorded B) (a : Address) :
    (Bus.readWordInBank b a).2 = b.afterReads [a, a.inBank 1] := by
  rw [readWordInBank_eq]

/-- So is a 24-bit address. -/
theorem readPointerInBank_eq (b : Recorded B) (a : Address) :
    Bus.readPointerInBank b a =
      (⟨(Bus.read (b.afterReads [a, a.inBank 1]) (a.inBank 2)).1,
        joinBytes (Bus.read b a).1 (Bus.read (Bus.read b a).2 (a.inBank 1)).1⟩,
        b.afterReads [a, a.inBank 1, a.inBank 2]) := by
  by_cases hroom : a.offset ≤ 0xFFFD
  · have hle := UInt16.le_iff_toNat_le.mp hroom
    simp only [UInt16.reduceToNat] at hle
    have hnext : a.onward 1 = a.inBank 1 := Address.onward_eq_inBank (n := 1) (by omega)
    have hlast : a.onward 2 = a.inBank 2 := Address.onward_eq_inBank (n := 2) (by omega)
    rw [Bus.readPointerInBank, if_pos hroom, ← hnext, ← hlast]
    rfl
  · rw [Bus.readPointerInBank, if_neg hroom, readWordInBank_eq]
    rfl

theorem bus_readPointerInBank (b : Recorded B) (a : Address) :
    (Bus.readPointerInBank b a).2 = b.afterReads [a, a.inBank 1, a.inBank 2] := by
  rw [readPointerInBank_eq]

/-- Reading adds to the record at its head. -/
theorem suffix_read {l : List Access} {b : Recorded B} (h : l <:+ b.accesses) (a : Address) :
    l <:+ (Bus.read b a).2.accesses :=
  h.trans (List.suffix_cons _ _)

theorem suffix_write {l : List Access} {b : Recorded B} (h : l <:+ b.accesses) (a : Address)
    (v : UInt8) : l <:+ (Bus.write b a v).accesses :=
  h.trans (List.suffix_cons _ _)

/-- A record is only ever added to. -/
theorem growing (l : List Access) :
    Bus.Simulation fun b b' : Recorded B => b = b' ∧ l <:+ b.accesses where
  read a := by
    rintro ⟨rfl, h⟩
    exact ⟨rfl, rfl, suffix_read h a⟩
  write a v := by
    rintro ⟨rfl, h⟩
    exact ⟨rfl, suffix_write h a v⟩
  peek a := by
    rintro ⟨rfl, h⟩
    rfl
  readWord a := by
    rintro ⟨rfl, h⟩
    exact ⟨rfl, rfl, suffix_read (suffix_read h a) _⟩
  writeWord a v := by
    rintro ⟨rfl, h⟩
    exact ⟨rfl, suffix_write (suffix_write h a _) _ _⟩
  readLong a := by
    rintro ⟨rfl, h⟩
    exact ⟨rfl, rfl, suffix_read (suffix_read (suffix_read (suffix_read h a) _) _) _⟩
  writeLong a v := by
    rintro ⟨rfl, h⟩
    exact ⟨rfl, suffix_write (suffix_write (suffix_write (suffix_write h a _) _ _) _ _) _ _⟩
  readPointer a := by
    rintro ⟨rfl, h⟩
    exact ⟨rfl, rfl, suffix_read (suffix_read (suffix_read h a) _) _⟩
  irqActive := by
    rintro b _ ⟨rfl, h⟩
    rfl

end Recorded

namespace Registers

/-- The places of `n` bytes after the opcode. -/
def operandPlaces (r : Registers) (n : Nat) : List Address :=
  (List.range n).map fun k => r.programAddress.inBank (UInt16.ofNat (k + 1))

/-- The places of an instruction of `n` bytes. -/
def instructionPlaces (r : Registers) (n : Nat) : List Address :=
  (List.range n).map fun k => r.programAddress.inBank (UInt16.ofNat k)

end Registers

/-- True for the modes whose effective address depends on all bytes after the opcode. -/
def Mode.locates : Mode → Bool
  | immediate | relative | relativeLong | blockMove | stackAbsolute | stackProgramCounterRelative
  | interrupt => false
  | _ => true

namespace Action

variable {B α β : Type} [Bus B] {r : Registers} {l l' : List Address}

/-- An action that never shortens the record. -/
structure Grows (p : Action (Recorded B) α) : Prop where
  run : ∀ m, m.bus.accesses <:+ (p.run m).2.bus.accesses

/-- From these registers, an action reads at these addresses, and does nothing else. -/
structure Fetches (r : Registers) (l : List Address) (p : Action (Recorded B) α) : Prop where
  run : ∀ m, m.core.toRegisters = r → (p.run m).2 = { m with bus := m.bus.afterReads l }

/-- From these registers, an action begins with reading at these addresses. -/
structure Begins (r : Registers) (l : List Address) (p : Action (Recorded B) α) : Prop where
  run : ∀ m, m.core.toRegisters = r →
    (m.bus.afterReads l).accesses <:+ (p.run m).2.bus.accesses

/-! ## Rules -/

omit [Bus B] in
/-- What does the same on the same buses has no way to shorten a record. -/
theorem Grows.of_agree {p : Action (Recorded B) α}
    (hp : ∀ l : List Access, Agree (fun b b' : Recorded B => b = b' ∧ l <:+ b.accesses) p p) :
    Grows p := by
  refine ⟨fun m => ?_⟩
  -- An action that agrees with itself carries an invariant of the bus along.
  have hsame : Twins (fun b b' : Recorded B => b = b' ∧ m.bus.accesses <:+ b.accesses) m m :=
    ⟨rfl, rfl, List.suffix_refl _⟩
  exact ((hp m.bus.accesses).run hsame).2.2.2

omit [Bus B] in
theorem Grows.bind {p : Action (Recorded B) α} {f : α → Action (Recorded B) β} (hp : Grows p)
    (hf : ∀ v, Grows (f v)) : Grows (p >>= f) :=
  ⟨fun m => (hp.run m).trans ((hf _).run _)⟩

theorem Grows.begins {p : Action (Recorded B) α} (hp : Grows p) : Begins r [] p :=
  ⟨fun m _ => hp.run m⟩

theorem Fetches.begins {p : Action (Recorded B) α} (hp : Fetches r l p) : Begins r l p := by
  refine ⟨fun m hm => ?_⟩
  have haccesses := congrArg (fun m => m.bus.accesses) (hp.run m hm)
  exact haccesses ▸ List.suffix_refl _

/-- What comes after the beginning is of no account. -/
theorem Begins.bind {p : Action (Recorded B) α} {f : α → Action (Recorded B) β}
    (hp : Begins r l p) (hf : ∀ v, Grows (f v)) : Begins r l (p >>= f) :=
  ⟨fun m hm => (hp.run m hm).trans ((hf _).run _)⟩

/-- What is only read leaves the registers for what comes after it. -/
theorem Fetches.bind {p : Action (Recorded B) α} {f : α → Action (Recorded B) β}
    (hp : Fetches r l p) (hf : ∀ v, Begins r l' (f v)) : Begins r (l ++ l') (p >>= f) := by
  refine ⟨fun m hm => ?_⟩
  -- Fetching leaves the registers alone, so the second action starts from the same ones.
  have hrest := (hf (p.run m).1).run { m with bus := m.bus.afterReads l } hm
  change _ <:+ ((f (p.run m).1).run (p.run m).2).2.bus.accesses
  rw [hp.run m hm, m.bus.afterReads_append]
  exact hrest

/-- An action that looks at the registers first. -/
theorem registers_begins {f : Registers → Action (Recorded B) α} (hf : Begins r l (f r)) :
    Begins r l (registers >>= f) := by
  refine ⟨fun m hm => ?_⟩
  change _ <:+ ((f m.core.toRegisters).run m).2.bus.accesses
  rw [hm]
  exact hf.run m hm

/-- The condition may be used to show how either way begins. -/
theorem Begins.ite {c : Prop} [Decidable c] {p q : Action (Recorded B) α} (hp : c → Begins r l p)
    (hq : ¬ c → Begins r l q) : Begins r l (if c then p else q) := by
  by_cases hc : c
  · rw [if_pos hc]
    exact hp hc
  · rw [if_neg hc]
    exact hq hc

/-! ## Operands -/

theorem operandPlaces_two (r : Registers) :
    r.operandPlaces 2 = [r.operandAddress, r.operandAddress.inBank 1] := by
  rw [Registers.operandAddress, Address.inBank_inBank]
  rfl

theorem operandPlaces_three (r : Registers) :
    r.operandPlaces 3 =
      [r.operandAddress, r.operandAddress.inBank 1, r.operandAddress.inBank 2] := by
  rw [Registers.operandAddress, Address.inBank_inBank, Address.inBank_inBank]
  rfl

/-- A byte is fetched from the first place after the opcode. -/
theorem operandByte_fetches :
    Fetches r (r.operandPlaces 1) (operandByte : Action (Recorded B) _) := by
  refine ⟨?_⟩
  rintro m rfl
  rfl

theorem operandWord_fetches :
    Fetches r (r.operandPlaces 2) (operandWord : Action (Recorded B) _) := by
  refine ⟨?_⟩
  rintro m rfl
  rw [operandPlaces_two, ← m.bus.bus_readWordInBank]
  rfl

/-- A 24-bit address is fetched from all three places after the opcode. -/
theorem operandLong_fetches :
    Fetches r (r.operandPlaces 3) (operandLong : Action (Recorded B) _) := by
  refine ⟨?_⟩
  rintro m rfl
  rw [operandPlaces_three, ← m.bus.bus_readPointerInBank]
  rfl

omit [Bus B] in
theorem pure_grows (v : α) : Grows (pure v : Action (Recorded B) α) :=
  .of_agree fun _ => .pure v

theorem readWordInBank_grows (a : Address) :
    Grows (readWordInBank a : Action (Recorded B) UInt16) :=
  .of_agree fun l => readWordInBank_agree (Recorded.growing l) a

/-- Looking for an effective address begins with the bytes after the opcode. -/
theorem locate_begins {mode : Mode} (h : mode.locates = true) :
    Begins r (r.operandPlaces (mode.size.toNat - 1)) (locate mode : Action (Recorded B) _) := by
  -- Reading a pointer comes after the operand, so that it does not shorten the record is all that
  -- matters.
  have hpointer : ∀ a, Grows (readPointerInBank a : Action (Recorded B) _) :=
    fun a => .of_agree fun l => readPointerInBank_agree (Recorded.growing l) a
  have hdirect : ∀ a, Grows (directPointer a : Action (Recorded B) _) :=
    fun a => .of_agree fun l => directPointer_agree (Recorded.growing l) a
  refine registers_begins ?_
  cases mode with
  | immediate | relative | relativeLong | blockMove | stackAbsolute
  | stackProgramCounterRelative | interrupt => exact nomatch h
  | implied | accumulator | stackImplied => exact (pure_grows _).begins
  | absolute | absoluteX | absoluteY =>
      exact operandWord_fetches.begins.bind fun offset => pure_grows _
  | absoluteLong | absoluteLongX =>
      exact operandLong_fetches.begins.bind fun target => pure_grows _
  | absoluteIndirect | absoluteIndexedIndirect =>
      refine operandWord_fetches.begins.bind fun place => ?_
      exact (readWordInBank_grows _).bind fun offset => pure_grows _
  | absoluteIndirectLong =>
      refine operandWord_fetches.begins.bind fun place => ?_
      exact (hpointer _).bind fun target => pure_grows _
  | direct | stackDirectIndirect | directX | directY | stackRelative =>
      exact operandByte_fetches.begins.bind fun displacement => pure_grows _
  | directIndirect | directIndexedIndirect | directIndirectIndexed =>
      refine operandByte_fetches.begins.bind fun displacement => ?_
      exact (hdirect _).bind fun offset => pure_grows _
  | directIndirectLong | directIndirectLongIndexed =>
      refine operandByte_fetches.begins.bind fun displacement => ?_
      exact (hpointer _).bind fun target => pure_grows _
  | stackRelativeIndirectIndexed =>
      refine operandByte_fetches.begins.bind fun displacement => ?_
      exact (readWordInBank_grows _).bind fun offset => pure_grows _

end Action

end W65C816
