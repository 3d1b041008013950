import W65C816.Proofs.Machine.Results

/-!
# Accesses of more than one byte

Which bytes a word, a pointer or an operand takes, in flat memory. The processor has a quick way for
words that do not come to the end of a bank and a slow one for those that do, and it has two rules
for where the second byte of an operand is. What crosses the bus does not tell the ways apart, and
reader and writer follow the same rule.

* `Address.placesOnward` and `Mode.dataPlaces` are the places in numbers, beside
  `Address.placesInBank`.
* `Action.ReadsAt` says of an action that it reads the bytes at some places, and
  `Action.WritesAt` that it writes bytes there. Both are about memory and about what crosses the
  bus.
* `Action.data_accesses_exact` is what all accesses do.
-/

namespace W65C816

/-! ## Places -/

/-- The places of `n` bytes from an address on, carrying into the bank. -/
def Address.placesOnward (a : Address) (n : Nat) : List Address :=
  (List.range n).map fun k => ofValue (UInt32.ofNat ((a.value.toNat + k) % spaceSize))

/-- The places of an operand at an address. With four modes the operand does not leave the bank. -/
def Mode.dataPlaces (mode : Mode) (a : Address) (w : Width) : List Address :=
  if mode ∈ [.direct, .directX, .directY, .stackRelative] then
    Address.placesInBank a.bank a.offset.toNat w.bytes
  else
    a.placesOnward w.bytes

namespace Address

variable (a : Address)

/-- Going on by some places is adding to the value and wrapping at the top of the space. -/
theorem ofValue_onward (n : Nat) :
    ofValue (UInt32.ofNat ((a.value.toNat + n) % spaceSize)) = a.onward (UInt32.ofNat n) := by
  apply value_inj
  apply UInt32.toNat_inj.mp
  rw [toNat_value_long (Nat.mod_lt _ (by decide)), toNat_value_onward_ofNat]

theorem placesOnward_one : a.placesOnward 1 = [a] := by
  rw [placesOnward, List.range_one, List.map_singleton, ofValue_onward, onward_ofNat_zero]

theorem placesOnward_two : a.placesOnward 2 = [a, a.onward 1] := by
  show [ofValue _, ofValue _] = _
  rw [ofValue_onward, ofValue_onward, onward_ofNat_zero]
  rfl

theorem mk_offset : (⟨a.bank, UInt16.ofNat a.offset.toNat⟩ : Address) = a := by
  rw [UInt16.ofNat_toNat]

theorem placesInBank_self_one : placesInBank a.bank a.offset.toNat 1 = [a] :=
  congrArg (fun b => [b]) a.mk_offset

theorem placesInBank_self_two : placesInBank a.bank a.offset.toNat 2 = [a, a.inBank 1] := by
  have htwo := placesInBank_two a.bank a.offset.toNat
  rw [mk_offset] at htwo
  exact htwo

end Address

namespace Mode

variable (mode : Mode) (a : Address)

theorem dataPlaces_byte : mode.dataPlaces a .byte = [a] := by
  rw [dataPlaces]
  split
  · exact a.placesInBank_self_one
  · exact a.placesOnward_one

/-- A word lies in two places. Its mode tells where the second one is. -/
theorem dataPlaces_word :
    mode.dataPlaces a .word = [a, if mode.wrapsInBankZero then a.inBank 1 else a.onward 1] := by
  rw [dataPlaces]
  by_cases hwraps : mode.wrapsInBankZero = true
  · rw [if_pos (mode.wrapsInBankZero_iff.mp hwraps), if_pos hwraps]
    exact a.placesInBank_self_two
  · rw [if_neg (mt mode.wrapsInBankZero_iff.mpr hwraps), if_neg hwraps]
    exact a.placesOnward_two

end Mode

namespace Recorded

/-- On a recorded bus, a word is written byte by byte, wherever it is in its bank. -/
theorem bus_writeWordInBank {B : Type} [Bus B] (b : Recorded B) (a : Address) (v : UInt16) :
    Bus.writeWordInBank b a v =
      Bus.write (Bus.write b a (lowByte v)) (a.inBank 1) (highByte v) := by
  rw [Bus.writeWordInBank]
  split
  · rfl
  · rename_i hend
    rw [← Address.onward_one_eq_inBank hend]
    rfl

end Recorded

namespace Action

variable {α : Type} {m : Machine Memory} {places : List Address}

/-! ## Reading -/

theorem ofNat_littleEndian_singleton (v : UInt8) :
    UInt16.ofNat (littleEndian [v]) = v.toUInt16 := by
  apply UInt16.toNat_inj.mp
  have hv := v.toNat_lt
  rw [UInt8.toNat_toUInt16, UInt16.toNat_ofNat', littleEndian, littleEndian]
  omega

/-- The action reads the bytes at these places, in this order and each of them once. That is all it
    does, and this is what it gives. -/
structure ReadsAt (m : Machine Memory) (places : List Address) (v : α)
    (p : ∀ (B : Type) [Bus B], Action B α) : Prop where
  run : (p Memory).run m = (v, m)
  recorded : (p (Recorded Memory)).run m.recorded =
    (v, { core := m.core, bus := ⟨m.bus, (places.map fun a => .read a (m.bus.get a)).reverse⟩ })

/-- An action that does not care which bus it is on reads in flat memory what it gets there. -/
theorem ReadsAt.of_gets {v : α} {p : ∀ (B : Type) [Bus B], Action B α}
    (hgets : Gets m.core.toRegisters m.bus places v (p (Recorded Memory)))
    (hagree : Agree (fun (m : Memory) (b : Recorded Memory) => b.bus = m) (p Memory)
      (p (Recorded Memory))) : ReadsAt m places v p := by
  have hrun := hgets.run m.recorded rfl rfl
  rw [Recorded.afterReads_memory] at hrun
  -- The same action runs on memory and on its record, which cannot be told apart.
  have htwins : Twins (fun (m : Memory) (b : Recorded Memory) => b.bus = m) m m.recorded :=
    ⟨rfl, rfl⟩
  obtain ⟨hvalue, hcore, hbus⟩ := hagree.run htwins
  rw [hrun] at hvalue hcore hbus
  refine ⟨?_, ?_⟩
  · refine Prod.ext hvalue ?_
    generalize ((p Memory).run m).2 = after at hcore hbus
    cases after with
    | mk core bus =>
        cases hcore
        cases hbus
        rfl
  · rw [hrun]
    exact congrArg (fun l => (v, (⟨m.core, ⟨m.bus, l⟩⟩ : Machine (Recorded Memory))))
      (List.append_nil _)

theorem readWord_gets {r : Registers} {bytes : Memory} (a : Address) :
    Gets r bytes [a, a.onward 1] (joinBytes (bytes.get a) (bytes.get (a.onward 1)))
      (readWord a) := by
  refine ⟨?_⟩
  rintro m - rfl
  rfl

/-- A word that stays in its bank is read from two places there. -/
theorem readWordInBank_gets_at {r : Registers} {bytes : Memory} (a : Address) :
    let places := Address.placesInBank a.bank a.offset.toNat 2
    Gets r bytes places (UInt16.ofNat (bytes.number places)) (readWordInBank a) := by
  have hgets : Gets r bytes _ _ _ := readWordInBank_gets a.bank a.offset.toNat
  rw [a.mk_offset] at hgets
  exact hgets

theorem readPointerInBank_gets_at {r : Registers} {bytes : Memory} (a : Address) :
    let places := Address.placesInBank a.bank a.offset.toNat 3
    Gets r bytes places (Address.ofValue (UInt32.ofNat (bytes.number places)))
      (readPointerInBank a) := by
  have hgets : Gets r bytes _ _ _ := readPointerInBank_gets a.bank a.offset.toNat
  rw [a.mk_offset] at hgets
  exact hgets

/-- Data are read from their places and from nowhere else, and are the number that lies there. -/
theorem readData_gets {r : Registers} {bytes : Memory} (a : Address) (mode : Mode) (w : Width) :
    Gets r bytes (mode.dataPlaces a w) (UInt16.ofNat (bytes.number (mode.dataPlaces a w)))
      (readData a mode w) := by
  cases w with
  | byte =>
      have hbyte : UInt16.ofNat (bytes.number [a]) = (bytes.get a).toUInt16 := by
        rw [Memory.number, List.map_singleton, ofNat_littleEndian_singleton]
      rw [mode.dataPlaces_byte, hbyte]
      exact (read_gets a).andThen UInt8.toUInt16
  | word =>
      rw [readData, mode.dataPlaces_word]
      split
      · rw [← a.placesInBank_self_two]
        exact readWordInBank_gets_at a
      · rw [Memory.number, List.map_cons, List.map_singleton, ofNat_littleEndian_pair]
        exact readWord_gets a

/-! ## Writing -/

/-- The action writes these bytes to these places, in this order. It reads nothing, and it leaves
    the core and all other places alone. -/
structure WritesAt (m : Machine Memory) (places : List Address) (bytes : List UInt8)
    (p : ∀ (B : Type) [Bus B], Action B Unit) : Prop where
  core : ((p Memory).run m).2.core = m.core
  held : places.map ((p Memory).run m).2.bus.get = bytes
  kept : ∀ a ∉ places, ((p Memory).run m).2.bus.get a = m.bus.get a
  recorded : ((p (Recorded Memory)).run m.recorded).2.bus.accesses.reverse =
    List.zipWith Access.write places bytes

/-- Two bytes at different places. -/
theorem WritesAt.pair {p : ∀ (B : Type) [Bus B], Action B Unit} {a b : Address} {v : UInt16}
    (hne : b ≠ a)
    (hrun : ((p Memory).run m).2 =
      { m with bus := (m.bus.set a (lowByte v)).set b (highByte v) })
    (hrecorded : ((p (Recorded Memory)).run m.recorded).2.bus =
      Bus.write (Bus.write m.recorded.bus a (lowByte v)) b (highByte v)) :
    WritesAt m [a, b] (wordBytes v) p := by
  refine ⟨?_, ?_, ?_, ?_⟩
  · rw [hrun]
  · rw [hrun]
    exact m.bus.map_get_set_set hne v
  · intro x hx
    rw [hrun]
    exact m.bus.get_set_set_of_not_mem hx _ _
  · rw [hrecorded]
    rfl

/-- A word that stays in its bank is written to two places there, the low byte first. -/
theorem writeWordInBank_writesAt (m : Machine Memory) (a : Address) (v : UInt16) :
    WritesAt m (Address.placesInBank a.bank a.offset.toNat 2) (wordBytes v)
      fun _ _ => writeWordInBank a v := by
  rw [a.placesInBank_self_two]
  refine .pair a.inBank_one_ne ?_ (Recorded.bus_writeWordInBank _ a v)
  exact congrArg (Machine.mk m.core) (Memory.bus_writeWordInBank m.bus a v)

/-- A word that may leave its bank is written to a place and the next one of the whole space. -/
theorem writeWord_writesAt (m : Machine Memory) (a : Address) (v : UInt16) :
    WritesAt m [a, a.onward 1] (wordBytes v) fun _ _ => writeWord a v :=
  .pair a.onward_one_ne rfl rfl

/-- Data are written to their places, as many bytes of them as the width has. -/
theorem writeData_writesAt (m : Machine Memory) (a : Address) (mode : Mode) (w : Width)
    (v : UInt16) :
    WritesAt m (mode.dataPlaces a w) ((wordBytes v).take w.bytes)
      fun _ _ => writeData a mode w v := by
  cases w with
  | byte =>
      rw [mode.dataPlaces_byte]
      refine ⟨rfl, ?_, ?_, rfl⟩
      · show [(m.bus.set a (lowByte v)).get a] = [lowByte v]
        rw [Memory.get_set, if_pos rfl]
      · intro x hx
        exact m.bus.get_set_of_ne (List.ne_of_not_mem_cons hx) _
  | word =>
      rw [mode.dataPlaces_word]
      -- The mode alone says which neighbour the high byte goes to.
      cases hwraps : mode.wrapsInBankZero with
      | true =>
          have hwrite : ∀ (B : Type) [Bus B], (writeData a mode .word v : Action B Unit) =
              writeWordInBank a v := fun _ _ => if_pos hwraps
          simp only [hwrite]
          have hpair := writeWordInBank_writesAt m a v
          rw [a.placesInBank_self_two] at hpair
          exact hpair
      | false =>
          have hwrite : ∀ (B : Type) [Bus B], (writeData a mode .word v : Action B Unit) =
              writeWord a v := fun _ _ => if_neg (by simp [hwraps])
          simp only [hwrite]
          exact writeWord_writesAt m a v

/-- What has been written is the value, as far as the operand goes. -/
theorem WritesAt.number {p : ∀ (B : Type) [Bus B], Action B Unit} {w : Width} {v : UInt16}
    (h : WritesAt m places ((wordBytes v).take w.bytes) p) :
    UInt16.ofNat (((p Memory).run m).2.bus.number places) = w.truncate v := by
  rw [Memory.number, h.held]
  cases w with
  | byte =>
      rw [← toUInt16_lowByte]
      exact ofNat_littleEndian_singleton (lowByte v)
  | word => exact (ofNat_littleEndian_pair _ _).trans (joinBytes_lowByte_highByte v)

/-- The accesses of a machine on flat memory, in every state and at every address.

    * A word and a pointer in one bank take the bytes at the offsets that follow, modulo the size of
      a bank, the lowest first.
    * An operand takes the places that its mode says, for reading and for writing. What is written
      is then read again, as much of it as the operand holds. -/
theorem data_accesses_exact (m : Machine Memory) (a : Address) :
    let word := Address.placesInBank a.bank a.offset.toNat 2
    let pointer := Address.placesInBank a.bank a.offset.toNat 3
    ReadsAt m word (UInt16.ofNat (m.bus.number word)) (fun _ _ => readWordInBank a) ∧
      ReadsAt m pointer (Address.ofValue (UInt32.ofNat (m.bus.number pointer)))
        (fun _ _ => readPointerInBank a) ∧
      (∀ v, WritesAt m word (wordBytes v) fun _ _ => writeWordInBank a v) ∧
      ∀ mode w v,
        let after := ((writeData a mode w v).run m).2
        WritesAt m (mode.dataPlaces a w) ((wordBytes v).take w.bytes)
            (fun _ _ => writeData a mode w v) ∧
          ReadsAt after (mode.dataPlaces a w) (w.truncate v) fun _ _ => readData a mode w := by
  intro word pointer
  have hsimulation := Recorded.memory_simulation
  refine ⟨?_, ?_, writeWordInBank_writesAt m a, ?_⟩
  · exact .of_gets (readWordInBank_gets_at a) (readWordInBank_agree hsimulation a)
  · exact .of_gets (readPointerInBank_gets_at a) (readPointerInBank_agree hsimulation a)
  · intro mode w v after
    have hwrites := writeData_writesAt m a mode w v
    refine ⟨hwrites, ?_⟩
    rw [← hwrites.number]
    exact .of_gets (readData_gets a mode w) (readData_agree hsimulation a mode w)

/-- A word at the end of a bank, which one mode continues at its start and another one in the next
    bank. -/
example :
    let m := (Machine.start Memory.blank .standard).machine
    let written := fun mode =>
      ((writeData ⟨2, 0xFFFF⟩ mode .word 0xABCD).run m.recorded).2.bus.accesses.reverse
    written .directX = [.write ⟨2, 0xFFFF⟩ 0xCD, .write ⟨2, 0⟩ 0xAB] ∧
      written .absoluteX = [.write ⟨2, 0xFFFF⟩ 0xCD, .write ⟨3, 0⟩ 0xAB] := by
  decide +kernel

end Action

end W65C816
