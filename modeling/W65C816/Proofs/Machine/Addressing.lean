import W65C816.Proofs.Machine.Fetch
import W65C816.Proofs.Machine.Spares

/-!
# Effective addresses

Where the operand of an instruction is, told in numbers: which bytes a mode looks at, which pointer
they lead to, and what becomes of that. Sums of numbers do not wrap by themselves, so every wrap is
said where it belongs: at the end of a page, of a bank, or of the whole space.

* `Mode.operandCount`, `Mode.pointerPlaces` and `Mode.target` are this description.
* `Action.Gets` says of an action that it does nothing but read certain bytes, with what comes of
  it. `Action.locate_gets` goes through all modes.
* `effective_address_by_mode` is what follows for flat memory.
-/

namespace W65C816

/-! ## The modes in numbers -/

/-- The places of `n` bytes from an offset on, all of them in one bank. -/
def Address.placesInBank (bank : UInt8) (offset n : Nat) : List Address :=
  (List.range n).map fun k => ⟨bank, UInt16.ofNat (offset + k)⟩

/-- The number that is in memory at some places, its lowest byte first. -/
def Memory.number (m : Memory) (places : List Address) : Nat :=
  littleEndian (places.map m.get)

namespace Registers

/-- The offset of a place on the direct page. -/
def directOffset (r : Registers) (displacement index : Nat) : Nat :=
  if r.status.emulation then (displacement + index) % 0x100
  else (r.d.toNat + displacement + index) % 0x10000

/-- The places of a 16-bit pointer on the direct page. In emulation mode it does not leave the
    page. -/
def directPointerPlaces (r : Registers) (offset : Nat) : List Address :=
  if r.status.emulation then [⟨0, UInt16.ofNat offset⟩, ⟨0, UInt16.ofNat ((offset + 1) % 0x100)⟩]
  else Address.placesInBank 0 offset 2

/-- The offset of a place above the stack pointer. -/
def stackOffset (r : Registers) (displacement : Nat) : Nat :=
  (r.stack.pointer.toNat + displacement) % 0x10000

end Registers

namespace Mode

/-- How many bytes after the opcode an effective address depends on. -/
def operandCount : Mode → Nat
  | implied | accumulator | stackImplied | interrupt | immediate | relative | relativeLong
  | blockMove | stackAbsolute | stackProgramCounterRelative => 0
  | direct | directX | directY | directIndirect | directIndirectLong | directIndexedIndirect
  | directIndirectIndexed | directIndirectLongIndexed | stackRelative
  | stackRelativeIndirectIndexed | stackDirectIndirect => 1
  | absolute | absoluteX | absoluteY | absoluteIndirect | absoluteIndirectLong
  | absoluteIndexedIndirect => 2
  | absoluteLong | absoluteLongX => 3

/-- The places of the pointer that a mode follows, if it does. -/
def pointerPlaces (mode : Mode) (r : Registers) (operand : Nat) : List Address :=
  match mode with
  | absoluteIndirect => Address.placesInBank 0 operand 2
  | absoluteIndirectLong => Address.placesInBank 0 operand 3
  | absoluteIndexedIndirect => Address.placesInBank r.pbr (operand + r.x.toNat) 2
  | directIndirect | directIndirectIndexed => r.directPointerPlaces (r.directOffset operand 0)
  | directIndexedIndirect => r.directPointerPlaces (r.directOffset operand r.x.toNat)
  | directIndirectLong | directIndirectLongIndexed =>
      Address.placesInBank 0 (r.directOffset operand 0) 3
  | stackRelativeIndirectIndexed => Address.placesInBank 0 (r.stackOffset operand) 2
  | _ => []

/-- The value of the effective address, by the operand and the pointer. -/
def target (mode : Mode) (r : Registers) (operand pointer : Nat) : Nat :=
  let program := r.pbr.toNat * 0x10000
  let data := r.dbr.toNat * 0x10000
  match mode with
  | implied | accumulator | stackImplied | interrupt => program + r.pc.toNat
  | immediate | relative | relativeLong | blockMove | stackAbsolute
  | stackProgramCounterRelative => program + (r.pc.toNat + 1) % 0x10000
  | absolute => data + operand
  | absoluteX => (data + operand + r.x.toNat) % Address.spaceSize
  | absoluteY => (data + operand + r.y.toNat) % Address.spaceSize
  | absoluteLong => operand
  | absoluteLongX => (operand + r.x.toNat) % Address.spaceSize
  | absoluteIndirect | absoluteIndexedIndirect => program + pointer
  | absoluteIndirectLong | directIndirectLong => pointer
  | direct | stackDirectIndirect => r.directOffset operand 0
  | directX => r.directOffset operand r.x.toNat
  | directY => r.directOffset operand r.y.toNat
  | directIndirect | directIndexedIndirect => data + pointer
  | directIndirectIndexed | stackRelativeIndirectIndexed =>
      (data + pointer + r.y.toNat) % Address.spaceSize
  | directIndirectLongIndexed => (pointer + r.y.toNat) % Address.spaceSize
  | stackRelative => r.stackOffset operand

end Mode

/-! ## Numbers and addresses -/

/-- Number of values that so many bytes have. -/
def modulusOf : Nat → Nat
  | 0 => 1
  | n + 1 => 0x100 * modulusOf n

theorem littleEndian_lt (l : List UInt8) : littleEndian l < modulusOf l.length := by
  induction l with
  | nil => exact Nat.one_pos
  | cons v rest ih =>
      have hv := v.toNat_lt
      rw [littleEndian, List.length_cons, modulusOf]
      omega

namespace Memory

theorem number_lt (m : Memory) (places : List Address) :
    m.number places < modulusOf places.length := by
  have hlt := littleEndian_lt (places.map m.get)
  rw [List.length_map] at hlt
  exact hlt

theorem number_placesInBank_lt (m : Memory) (bank : UInt8) (offset n : Nat) :
    m.number (Address.placesInBank bank offset n) < modulusOf n := by
  have hlt := m.number_lt (Address.placesInBank bank offset n)
  rw [Address.placesInBank, List.length_map, List.length_range] at hlt
  exact hlt

/-- A pointer on the direct page is an offset. -/
theorem number_directPointerPlaces_lt (m : Memory) (r : Registers) (offset : Nat) :
    m.number (r.directPointerPlaces offset) < 0x10000 := by
  have hlength : (r.directPointerPlaces offset).length = 2 := by
    rw [Registers.directPointerPlaces]
    split
    · rfl
    · rfl
  have hlt := m.number_lt (r.directPointerPlaces offset)
  rw [hlength] at hlt
  exact hlt

end Memory

namespace Address

/-- Two places in a bank are an address and its neighbour there. -/
theorem placesInBank_two (bank : UInt8) (offset : Nat) :
    let a : Address := ⟨bank, UInt16.ofNat offset⟩
    placesInBank bank offset 2 = [a, a.inBank 1] := by
  have hnext : UInt16.ofNat (offset + 1) = UInt16.ofNat offset + 1 := UInt16.ofNat_add offset 1
  intro a
  rw [inBank, ← hnext]
  rfl

theorem placesInBank_three (bank : UInt8) (offset : Nat) :
    let a : Address := ⟨bank, UInt16.ofNat offset⟩
    placesInBank bank offset 3 = [a, a.inBank 1, a.inBank 2] := by
  have hnext : UInt16.ofNat (offset + 1) = UInt16.ofNat offset + 1 := UInt16.ofNat_add offset 1
  have hlast : UInt16.ofNat (offset + 2) = UInt16.ofNat offset + 2 := UInt16.ofNat_add offset 2
  intro a
  rw [inBank, inBank, ← hnext, ← hlast]
  rfl

/-- The value of an address in numbers, for an offset that is given as one. -/
theorem toNat_value_mk (bank : UInt8) {offset : Nat} (h : offset < 0x10000) :
    (mk bank (UInt16.ofNat offset)).value.toNat = bank.toNat * 0x10000 + offset := by
  rw [toNat_value, UInt16.toNat_ofNat', Nat.mod_eq_of_lt h]

theorem toNat_value_long {n : Nat} (h : n < spaceSize) :
    (ofValue (UInt32.ofNat n)).value.toNat = n := by
  rw [toNat_value_ofValue, UInt32.toNat_ofNat', Nat.mod_eq_of_lt (Nat.lt_trans h (by decide)),
    Nat.mod_eq_of_lt h]

/-- An index carries into the bank. -/
theorem toNat_value_indexed {a : Address} {n : Nat} (h : a.value.toNat = n) (index : UInt16) :
    (a.onward index.toUInt32).value.toNat = (n + index.toNat) % spaceSize := by
  rw [toNat_value_onward, h, UInt16.toNat_toUInt32]

end Address

namespace Registers

/-- Operands lie behind the opcode, in the program bank. -/
theorem operandPlaces_eq (r : Registers) (n : Nat) :
    r.operandPlaces n = Address.placesInBank r.pbr (r.pc.toNat + 1) n := by
  refine List.map_congr_left fun k _ => ?_
  have hoffset : r.pc + UInt16.ofNat (k + 1) = UInt16.ofNat (r.pc.toNat + 1 + k) := by
    rw [Nat.add_assoc, Nat.add_comm 1 k, UInt16.ofNat_add r.pc.toNat, UInt16.ofNat_toNat]
  exact congrArg (Address.mk r.pbr) hoffset

theorem operandAddress_eq (r : Registers) :
    r.operandAddress = ⟨r.pbr, UInt16.ofNat (r.pc.toNat + 1)⟩ := by
  rw [UInt16.ofNat_add, UInt16.ofNat_toNat]
  rfl

/-- In emulation mode, operands on the direct page are in page 0. -/
theorem directOffset_lt (r : Registers) (displacement index : Nat) :
    r.directOffset displacement index < if r.status.emulation then 0x100 else 0x10000 := by
  rw [directOffset]
  split
  · exact Nat.mod_lt _ (by decide)
  · exact Nat.mod_lt _ (by decide)

/-- The place on the direct page, as a number. -/
theorem directAddress_eq (r : Registers) {displacement : Nat} (h : displacement < 0x100)
    (index : UInt16) :
    r.directAddress (UInt8.ofNat displacement) index =
      ⟨0, UInt16.ofNat (r.directOffset displacement index.toNat)⟩ := by
  have hbyte : (UInt8.ofNat displacement).toNat = displacement := by
    rw [UInt8.toNat_ofNat']
    exact Nat.mod_eq_of_lt h
  rw [directAddress, directOffset]
  split
  · refine congrArg (Address.mk 0) (UInt16.toNat_inj.mp ?_)
    simp only [UInt16.toNat_mod, UInt16.toNat_add, UInt8.toNat_toUInt16, hbyte, UInt16.toNat_ofNat',
      UInt16.reduceToNat]
    omega
  · refine congrArg (Address.mk 0) (UInt16.toNat_inj.mp ?_)
    simp only [UInt16.toNat_add, UInt8.toNat_toUInt16, hbyte, UInt16.toNat_ofNat']
    omega

theorem stackAddress_eq (r : Registers) {displacement : Nat} (h : displacement < 0x100) :
    r.stackAddress (UInt8.ofNat displacement) = ⟨0, UInt16.ofNat (r.stackOffset displacement)⟩ := by
  have hbyte : (UInt8.ofNat displacement).toNat = displacement := by
    rw [UInt8.toNat_ofNat']
    exact Nat.mod_eq_of_lt h
  refine congrArg (Address.mk 0) (UInt16.toNat_inj.mp ?_)
  simp only [UInt16.toNat_add, UInt8.toNat_toUInt16, hbyte, stackOffset, UInt16.toNat_ofNat']
  omega

/-- Such a place is in bank 0, so its value is its offset. -/
theorem toNat_directAddress (r : Registers) {displacement : Nat} (h : displacement < 0x100)
    (index : UInt16) :
    (r.directAddress (UInt8.ofNat displacement) index).value.toNat =
      r.directOffset displacement index.toNat := by
  have hlt : r.directOffset displacement index.toNat < 0x10000 := by
    refine Nat.lt_of_lt_of_le (r.directOffset_lt _ _) ?_
    split
    · decide
    · exact Nat.le_refl _
  rw [r.directAddress_eq h, Address.toNat_value_mk 0 hlt]
  exact Nat.zero_add _

theorem toNat_stackAddress (r : Registers) {displacement : Nat} (h : displacement < 0x100) :
    (r.stackAddress (UInt8.ofNat displacement)).value.toNat = r.stackOffset displacement := by
  have hlt : r.stackOffset displacement < 0x10000 := Nat.mod_lt _ (by decide)
  rw [r.stackAddress_eq h, Address.toNat_value_mk 0 hlt]
  exact Nat.zero_add _

end Registers

/-! ## Reading and nothing else -/

namespace Action

variable {α β : Type} {r : Registers} {bytes : Memory} {l l' : List Address} {v : α} {w : β}

/-- From these registers and this memory, an action reads at these addresses and does nothing else,
    and this is what it gives. -/
structure Gets (r : Registers) (bytes : Memory) (l : List Address) (v : α)
    (p : Action (Recorded Memory) α) : Prop where
  run : ∀ m, m.core.toRegisters = r → m.bus.bus = bytes →
    p.run m = (v, { m with bus := m.bus.afterReads l })

namespace Gets

theorem pure (v : α) : Gets r bytes [] v (Pure.pure v) :=
  ⟨fun _ _ _ => rfl⟩

/-- Reading leaves registers and memory for what comes after it. -/
theorem bind {p : Action (Recorded Memory) α} {f : α → Action (Recorded Memory) β}
    (hp : Gets r bytes l v p) (hf : Gets r bytes l' w (f v)) :
    Gets r bytes (l ++ l') w (p >>= f) := by
  refine ⟨fun m hm hbytes => ?_⟩
  have hkept : (m.bus.afterReads l).bus = bytes := by
    rw [Recorded.afterReads_memory]
    exact hbytes
  have hrest := hf.run { m with bus := m.bus.afterReads l } hm hkept
  rw [← Recorded.afterReads_append] at hrest
  change (f (p.run m).1).run (p.run m).2 = _
  rw [hp.run m hm hbytes]
  exact hrest

/-- An action that goes on without the bus. -/
theorem andThen {p : Action (Recorded Memory) α} (hp : Gets r bytes l v p) (f : α → β) :
    Gets r bytes l (f v) (p >>= fun v => Pure.pure (f v)) := by
  have hall := hp.bind (f := fun v => Pure.pure (f v)) (.pure (f v))
  rw [List.append_nil] at hall
  exact hall

/-- An action that looks at the registers first. -/
theorem ofRegisters {f : Registers → Action (Recorded Memory) β} (hf : Gets r bytes l w (f r)) :
    Gets r bytes l w (registers >>= f) := by
  refine ⟨fun m hm hbytes => ?_⟩
  change (f m.core.toRegisters).run m = _
  rw [hm]
  exact hf.run m hm hbytes

end Gets

theorem read_gets (a : Address) : Gets r bytes [a] (bytes.get a) (read a) := by
  refine ⟨?_⟩
  rintro m - rfl
  rfl

/-- A word in one bank is the number at its two places. -/
theorem readWordInBank_gets (bank : UInt8) (offset : Nat) :
    let places := Address.placesInBank bank offset 2
    Gets r bytes places (UInt16.ofNat (bytes.number places))
      (readWordInBank ⟨bank, UInt16.ofNat offset⟩) := by
  intro places
  refine ⟨?_⟩
  rintro m - rfl
  simp only [places]
  rw [Address.placesInBank_two, Memory.number, List.map_cons, List.map_singleton,
    ofNat_littleEndian_pair]
  exact congrArg (fun p : UInt16 × Recorded Memory => (p.1, { m with bus := p.2 }))
    (m.bus.readWordInBank_eq _)

/-- A 24-bit address in one bank is the number at its three places. -/
theorem readPointerInBank_gets (bank : UInt8) (offset : Nat) :
    let places := Address.placesInBank bank offset 3
    Gets r bytes places (Address.ofValue (UInt32.ofNat (bytes.number places)))
      (readPointerInBank ⟨bank, UInt16.ofNat offset⟩) := by
  intro places
  refine ⟨?_⟩
  rintro m - rfl
  simp only [places]
  rw [Address.placesInBank_three, Memory.number, List.map_cons, List.map_cons, List.map_singleton,
    ofValue_littleEndian_triple]
  exact congrArg (fun p : Address × Recorded Memory => (p.1, { m with bus := p.2 }))
    (m.bus.readPointerInBank_eq _)

theorem operandByte_gets :
    Gets r bytes (r.operandPlaces 1) (UInt8.ofNat (bytes.number (r.operandPlaces 1)))
      operandByte := by
  have hbyte : UInt8.ofNat (bytes.number (r.operandPlaces 1)) = bytes.get r.operandAddress := by
    exact UInt8.ofNat_toNat
  rw [hbyte]
  exact .ofRegisters (read_gets r.operandAddress)

theorem operandWord_gets :
    Gets r bytes (r.operandPlaces 2) (UInt16.ofNat (bytes.number (r.operandPlaces 2)))
      operandWord := by
  refine .ofRegisters ?_
  rw [r.operandAddress_eq, r.operandPlaces_eq]
  exact readWordInBank_gets _ _

/-- The operand as a number of three bytes, which is an address. -/
theorem operandLong_gets :
    Gets r bytes (r.operandPlaces 3)
      (Address.ofValue (UInt32.ofNat (bytes.number (r.operandPlaces 3)))) operandLong := by
  refine .ofRegisters ?_
  rw [r.operandAddress_eq, r.operandPlaces_eq]
  exact readPointerInBank_gets _ _

/-- A 16-bit pointer on the direct page is the number at its two places. -/
theorem directPointer_gets {displacement : Nat} (h : displacement < 0x100) (index : UInt16) :
    let places := r.directPointerPlaces (r.directOffset displacement index.toNat)
    Gets r bytes places (UInt16.ofNat (bytes.number places))
      (directPointer (r.directAddress (UInt8.ofNat displacement) index)) := by
  intro places
  have hoffset := r.directOffset_lt displacement index.toNat
  rw [r.directAddress_eq h]
  simp only [places]
  generalize r.directOffset displacement index.toNat = offset at hoffset
  refine .ofRegisters ?_
  -- In native mode the pointer goes on to the next place of bank 0. In emulation mode it depends on
  -- whether the page is at its end.
  cases he : r.status.emulation with
  | false =>
      rw [Registers.directPointerPlaces, he, Bool.false_and]
      exact readWordInBank_gets 0 offset
  | true =>
      rw [he, if_pos rfl] at hoffset
      rw [Registers.directPointerPlaces, he, if_pos rfl, Bool.true_and]
      by_cases hend : offset = 0xFF
      · -- The pointer goes on at the start of the page.
        subst hend
        rw [Memory.number, List.map_cons, List.map_singleton, ofNat_littleEndian_pair]
        exact (read_gets _).bind ((read_gets _).andThen (joinBytes _))
      · have hlow : ¬ (lowByte (UInt16.ofNat offset) == 0xFF) = true := by
          have hlast : (0xFF : UInt8).toNat = 0xFF := rfl
          rw [beq_iff_eq, ← UInt8.toNat_inj, toNat_lowByte, UInt16.toNat_ofNat', hlast]
          omega
        rw [if_neg hlow, Nat.mod_eq_of_lt (show offset + 1 < 0x100 by omega)]
        exact readWordInBank_gets 0 offset

/-- A 24-bit pointer on the direct page may leave it. -/
theorem directLong_gets {displacement : Nat} (h : displacement < 0x100) :
    let places := Address.placesInBank 0 (r.directOffset displacement 0) 3
    Gets r bytes places (Address.ofValue (UInt32.ofNat (bytes.number places)))
      (readPointerInBank (r.directAddress (UInt8.ofNat displacement) 0)) := by
  rw [r.directAddress_eq h]
  exact readPointerInBank_gets 0 _

/-- A pointer above the stack pointer is a word that wraps in bank 0. -/
theorem stackPointer_gets {displacement : Nat} (h : displacement < 0x100) :
    let places := Address.placesInBank 0 (r.stackOffset displacement) 2
    Gets r bytes places (UInt16.ofNat (bytes.number places))
      (readWordInBank (r.stackAddress (UInt8.ofNat displacement))) := by
  rw [r.stackAddress_eq h]
  exact readWordInBank_gets 0 _

/-- A mode reads its operand and then its pointer, and makes its effective address of them. -/
theorem locate_gets (mode : Mode) (r : Registers) (bytes : Memory) :
    let operand := bytes.number (r.operandPlaces mode.operandCount)
    let pointer := bytes.number (mode.pointerPlaces r operand)
    ∃ place, Gets r bytes (r.operandPlaces mode.operandCount ++ mode.pointerPlaces r operand) place
        (locate mode) ∧
      place.address.value.toNat = mode.target r operand pointer := by
  intro operand pointer
  -- The operand is small enough to be given as a word, so it may be taken for the number it is.
  have hoperand : operand < modulusOf mode.operandCount := by
    simp only [operand]
    rw [r.operandPlaces_eq]
    exact bytes.number_placesInBank_lt _ _ _
  -- One case for each mode, with the operand and then the pointer: what is read, from where, and
  -- what comes of it.
  cases mode with
  | implied | accumulator | stackImplied | interrupt =>
      exact ⟨_, .ofRegisters (.pure _), Address.toNat_value _⟩
  | immediate | relative | relativeLong | blockMove | stackAbsolute
  | stackProgramCounterRelative =>
      exact ⟨_, .ofRegisters (.pure _), Address.toNat_value _⟩
  | absolute =>
      exact ⟨_, .ofRegisters (operandWord_gets.bind (.pure _)), Address.toNat_value_mk _ hoperand⟩
  | absoluteX | absoluteY =>
      exact ⟨_, .ofRegisters (operandWord_gets.bind (.pure _)),
        Address.toNat_value_indexed (Address.toNat_value_mk _ hoperand) _⟩
  | absoluteLong =>
      exact ⟨_, .ofRegisters (operandLong_gets.bind (.pure _)), Address.toNat_value_long hoperand⟩
  | absoluteLongX =>
      exact ⟨_, .ofRegisters (operandLong_gets.bind (.pure _)),
        Address.toNat_value_indexed (Address.toNat_value_long hoperand) _⟩
  | absoluteIndirect =>
      exact ⟨_, .ofRegisters (operandWord_gets.bind ((readWordInBank_gets 0 operand).andThen _)),
        Address.toNat_value_mk _ (bytes.number_placesInBank_lt 0 operand 2)⟩
  | absoluteIndirectLong =>
      exact ⟨_, .ofRegisters (operandWord_gets.bind ((readPointerInBank_gets 0 operand).andThen _)),
        Address.toNat_value_long (bytes.number_placesInBank_lt 0 operand 3)⟩
  | absoluteIndexedIndirect =>
      have hplace : UInt16.ofNat operand + r.x = UInt16.ofNat (operand + r.x.toNat) := by
        rw [UInt16.ofNat_add, UInt16.ofNat_toNat]
      have hread : Gets r bytes _ _ (readWordInBank _) :=
        readWordInBank_gets r.pbr (operand + r.x.toNat)
      rw [← hplace] at hread
      exact ⟨_, .ofRegisters (operandWord_gets.bind (hread.andThen _)),
        Address.toNat_value_mk _ (bytes.number_placesInBank_lt _ _ 2)⟩
  | direct | stackDirectIndirect =>
      exact ⟨_, .ofRegisters (operandByte_gets.bind (.pure _)), r.toNat_directAddress hoperand 0⟩
  | directX | directY =>
      exact ⟨_, .ofRegisters (operandByte_gets.bind (.pure _)), r.toNat_directAddress hoperand _⟩
  | directIndirect =>
      exact ⟨_, .ofRegisters (operandByte_gets.bind ((directPointer_gets hoperand 0).andThen _)),
        Address.toNat_value_mk _ (bytes.number_directPointerPlaces_lt r _)⟩
  | directIndexedIndirect =>
      exact ⟨_, .ofRegisters (operandByte_gets.bind ((directPointer_gets hoperand r.x).andThen _)),
        Address.toNat_value_mk _ (bytes.number_directPointerPlaces_lt r _)⟩
  | directIndirectIndexed =>
      exact ⟨_, .ofRegisters (operandByte_gets.bind ((directPointer_gets hoperand 0).andThen _)),
        Address.toNat_value_indexed
          (Address.toNat_value_mk _ (bytes.number_directPointerPlaces_lt r _)) _⟩
  | directIndirectLong =>
      exact ⟨_, .ofRegisters (operandByte_gets.bind ((directLong_gets hoperand).andThen _)),
        Address.toNat_value_long (bytes.number_placesInBank_lt 0 _ 3)⟩
  | directIndirectLongIndexed =>
      exact ⟨_, .ofRegisters (operandByte_gets.bind ((directLong_gets hoperand).andThen _)),
        Address.toNat_value_indexed
          (Address.toNat_value_long (bytes.number_placesInBank_lt 0 _ 3)) _⟩
  | stackRelative =>
      exact ⟨_, .ofRegisters (operandByte_gets.bind (.pure _)), r.toNat_stackAddress hoperand⟩
  | stackRelativeIndirectIndexed =>
      exact ⟨_, .ofRegisters (operandByte_gets.bind ((stackPointer_gets hoperand).andThen _)),
        Address.toNat_value_indexed
          (Address.toNat_value_mk _ (bytes.number_placesInBank_lt 0 _ 2)) _⟩

end Action

/-! ## Machines -/

/-- Flat memory does not notice that it is recorded. -/
theorem Recorded.memory_simulation :
    Bus.Simulation fun (m : Memory) (b : Recorded Memory) => b.bus = m where
  read a := by
    rintro rfl
    exact ⟨rfl, rfl⟩
  write a v := by
    rintro rfl
    rfl
  peek a := by
    rintro rfl
    rfl
  readWord a := by
    rintro rfl
    exact ⟨rfl, rfl⟩
  writeWord a v := by
    rintro rfl
    rfl
  readLong a := by
    rintro rfl
    exact ⟨rfl, rfl⟩
  writeLong a v := by
    rintro rfl
    rfl
  readPointer a := by
    rintro rfl
    exact ⟨rfl, rfl⟩
  irqActive := by
    rintro _ b rfl
    rfl

/-- The effective address of every mode, in every state of a machine on flat memory.

    * Its value is that of `Mode.target`, with the numbers that are in memory at the places of the
      operand and of the pointer.
    * To find it, these bytes are read, each of them once, and the operand before the pointer.
      Nothing else happens to core and memory. -/
theorem effective_address_by_mode (m : Machine Memory) (mode : Mode) :
    let operandPlaces := m.core.toRegisters.operandPlaces mode.operandCount
    let operand := m.bus.number operandPlaces
    let pointerPlaces := mode.pointerPlaces m.core.toRegisters operand
    let pointer := m.bus.number pointerPlaces
    let found := m.effectiveAddress mode
    let recorded := m.recorded.effectiveAddress mode
    found.result.value.toNat = mode.target m.core.toRegisters operand pointer ∧
      found.machine = m ∧ recorded.result = found.result ∧
      recorded.machine.core = m.core ∧ recorded.machine.bus.bus = m.bus ∧
      recorded.machine.bus.accesses.reverse =
        (operandPlaces ++ pointerPlaces).map fun a => .read a (m.bus.get a) := by
  intro operandPlaces operand pointerPlaces pointer found recorded
  obtain ⟨place, hgets, htarget⟩ := Action.locate_gets mode m.core.toRegisters m.bus
  have hrun : (Action.locate mode).run m.recorded = (place, { m.recorded with
      bus := m.recorded.bus.afterReads (operandPlaces ++ pointerPlaces) }) :=
    hgets.run m.recorded rfl rfl
  rw [Recorded.afterReads_memory] at hrun
  -- The record is only there to tell what is read. Without it the same place is found.
  have hplace : ((Action.locate mode).run m).1 = place := by
    have htwins : Twins (fun (m : Memory) (b : Recorded Memory) => b.bus = m) m m.recorded :=
      ⟨rfl, rfl⟩
    have hagree := (Action.locate_agree Recorded.memory_simulation mode).run htwins
    exact hagree.1.trans (congrArg Prod.fst hrun)
  refine ⟨?_, (Action.locate_looks mode).still m, ?_, ?_, ?_, ?_⟩
  · exact (congrArg (fun p : Located => p.address.value.toNat) hplace).trans htarget
  · exact (congrArg (fun p => p.1.address) hrun).trans (congrArg Located.address hplace).symm
  · exact congrArg (fun p => p.2.core) hrun
  · exact congrArg (fun p => p.2.bus.bus) hrun
  · refine (congrArg (fun p => p.2.bus.accesses.reverse) hrun).trans ?_
    exact (congrArg List.reverse (List.append_nil _)).trans (List.reverse_reverse _)

/-- A pointer that goes on at the start of page 0. -/
example :
    let memory := (Memory.blank.load 0 [0xB1, 0xFF]).load 0xFF [0xF8]
    let m := ((Machine.start memory .standard).machine.perform (.setY 0x10)).machine
    (m.effectiveAddress .directIndirectIndexed).result = ⟨0, 0xB208⟩ ∧
      (m.recorded.effectiveAddress .directIndirectIndexed).machine.bus.accesses.reverse =
        [.read ⟨0, 1⟩ 0xFF, .read ⟨0, 0xFF⟩ 0xF8, .read ⟨0, 0⟩ 0xB1] := by
  decide +kernel

end W65C816
