import W65C816.Proofs.Board.Wiring
import W65C816.Proofs.Machine.BlockMove
import W65C816.Proofs.Machine.Budget

/-!
# Cycle counts on the board

A run goes beyond its budget by the rest of its last instruction, which can be a block move. The
board takes budgets of 32 bits and gives the cycles of a run as a number of 32 bits, so a run can
take more cycles than the board can tell.

* `Machine.Wheel` is a bus with a program that moves blocks where nobody answers, again and again.
  A step of each kind is computed once (`Machine.step_move`, `Machine.step_back`), and a run is an
  induction over its turns (`Machine.runTo_turns`).
* `Board.wheel_loaded` finds this bus on a board.
* `board_tells_cycles_iff` says when the number is right. It is the number of cycles modulo the
  numbers there are, and `cycles_cut` is a run where this makes a difference.
-/

namespace W65C816

/-! ## A program that moves nothing -/

/-- A core that turns the wheel, fresh from a reset but for what a block move has left. -/
def Core.turning (a x : UInt16) (dbr : UInt8) (pc : UInt16) (cycles : UInt64) : Core :=
  { (Core.powerOn .standard).mapRegisters Registers.reset with
    a, x, y := x, dbr, pc, cycles, panel := { Panel.fresh with cycles } }

/-- The program of the wheel: a block move in a bank, and a branch back to it. -/
def wheel : List UInt8 :=
  [0x54, 0x02, 0x02, 0x80, 0xFB]

namespace Machine

/-- A bus with the program of the wheel, on which nobody answers in the bank that it moves. -/
structure Wheel {B : Type} [Bus B] (b : B) : Prop where
  code : ∀ k v, wheel[k]? = some v → Bus.read b ⟨0, 0x600 + UInt16.ofNat k⟩ = (v, b)
  unanswered : ∀ offset, (Bus.read b ⟨2, offset⟩).2 = b
  lost : ∀ offset v, Bus.write b ⟨2, offset⟩ v = b
  quiet : Bus.irqActive b = false

end Machine

namespace Action

variable {B : Type} [Bus B] {b : B} {direction : Direction} {source destination : UInt8}
  {cycles : UInt64}

/-- A block that is moved where nobody answers leaves the bus alone. -/
theorem moveBytes_unanswered (hread : ∀ offset, (Bus.read b ⟨source, offset⟩).2 = b)
    (hwrite : ∀ offset v, Bus.write b ⟨destination, offset⟩ v = b) (n : Nat) {c : Core}
    (hx : c.indexed c.x = c.x) (hy : c.indexed c.y = c.y) :
    ((moveBytes direction source destination cycles n).run ⟨c, b⟩).2 =
      ⟨(c.mapRegisters (Registers.carried · direction n)).charge (cycles * UInt64.ofNat n), b⟩ := by
  -- By induction on the bytes that remain. The bus stays as it is, so each byte finds it again.
  induction n generalizing c with
  | zero =>
      have hnothing : c.cycles + cycles * UInt64.ofNat 0 = c.cycles := by
        show c.cycles + cycles * 0 = c.cycles
        rw [UInt64.mul_zero, UInt64.add_zero]
      rw [Core.charge, Core.mapRegisters, Registers.carried_zero direction hx hy, hnothing]
      rfl
  | succ n ih =>
      have hfirst : ((moveByte direction source destination cycles).run ⟨c, b⟩).2 =
          ⟨(c.mapRegisters fun r => { r with
            x := r.indexed (direction.next r.x)
            y := r.indexed (direction.next r.y)
            a := r.a - 1 }).charge cycles, b⟩ := by
        show Machine.mk _ (Bus.write (Bus.read b ⟨source, c.x⟩).2 ⟨destination, c.y⟩ _) = _
        rw [hread, hwrite]
      have hcycles : c.cycles + cycles + cycles * UInt64.ofNat n =
          c.cycles + cycles * UInt64.ofNat (n + 1) := by
        rw [UInt64.ofNat_add]
        grind
      show ((moveBytes direction source destination cycles n).run
        ((moveByte direction source destination cycles).run ⟨c, b⟩).2).2 = _
      rw [hfirst, ih (c.indexed_indexed _) (c.indexed_indexed _)]
      simp only [Core.charge, Core.mapRegisters, Registers.carried_next, hcycles]

end Action

namespace Machine

variable {B : Type} [Bus B] {b : B}

/-! ## A turn of the wheel -/

/-- Between turns the core is neither held nor interrupted, so it carries out an instruction. -/
theorem decide_turning (h : Wheel b) (a x : UInt16) (dbr : UInt8) (pc : UInt16) (cycles : UInt64) :
    let m : Machine B := ⟨.turning a x dbr pc cycles, b⟩
    m.core.decide m.irqLine = .instruction := by
  intro m
  have hline : m.irqLine = false := h.quiet
  rw [hline]
  rfl

/-- A step that fetches an opcode from a bus that stays as it is. -/
theorem machine_step_fetched {m : Machine B} (h : m.core.decide m.irqLine = .instruction)
    {opcode : UInt8} (hopcode : Bus.read m.bus m.core.programAddress = (opcode, m.bus))
    {i : Instruction} (hi : Instruction.ofOpcode opcode = i) :
    let after := ((Action.execute i).run ⟨m.core.wake, m.bus⟩).2
    m.step.machine = ⟨after.core.publish, after.bus⟩ := by
  rw [step_eq_advance h, machine_account, machine_advance, fetched, hopcode, hi]

/-- The move takes its bytes from and to nowhere, and counts. -/
theorem step_move (h : Wheel b) {a x : UInt16} (hx : (Core.turning a x 0 0 0).indexed x = x)
    (dbr : UInt8) (cycles : UInt64) :
    (Machine.mk (.turning a x dbr 0x600 cycles) b).step.machine =
      ⟨.turning (a - UInt16.ofNat (a.toNat + 1))
        ((Core.turning a x 0 0 0).indexed (x + UInt16.ofNat (a.toNat + 1))) 2 0x603
        (cycles + 7 * UInt64.ofNat (a.toNat + 1)), b⟩ := by
  have hopcode : Bus.read b ⟨0, 0x600⟩ = (0x54, b) := h.code 0 _ rfl
  have hdestination : Bus.read b ⟨0, 0x601⟩ = (2, b) := h.code 1 _ rfl
  have hsource : Bus.read b ⟨0, 0x602⟩ = (2, b) := h.code 2 _ rfl
  have hi : Instruction.ofOpcode 0x54 = ⟨.mvn, .blockMove, 7⟩ := by decide +kernel
  rw [machine_step_fetched (decide_turning h a x dbr 0x600 cycles) hopcode hi]
  have hlast : ((Action.moveBytes .up 2 2 7 (a.toNat + 1)).run
      ⟨.turning a x 2 0x600 cycles, b⟩).2 = _ :=
    Action.moveBytes_unanswered h.unanswered h.lost (a.toNat + 1) hx hx
  have hrun : ((Action.execute ⟨.mvn, .blockMove, 7⟩).run
      ⟨(Core.turning a x dbr 0x600 cycles).wake, b⟩).2 =
      let destination := Bus.read b ⟨0, 0x601⟩
      let source := Bus.read destination.2 ⟨0, 0x602⟩
      let last := ((Action.moveBytes .up source.1 destination.1 7 (a.toNat + 1)).run
        ⟨.turning a x destination.1 0x600 cycles, source.2⟩).2
      { last with core := last.core.mapRegisters fun r => { r with pc := r.pc + 3 } } := rfl
  simp only [hdestination, hsource, hlast] at hrun
  rw [hrun]
  rfl

/-- The branch goes back to the move. -/
theorem step_back (h : Wheel b) (a x : UInt16) (dbr : UInt8) (cycles : UInt64) :
    (Machine.mk (.turning a x dbr 0x603 cycles) b).step.machine =
      ⟨.turning a x dbr 0x600 (cycles + 3), b⟩ := by
  have hopcode : Bus.read b ⟨0, 0x603⟩ = (0x80, b) := h.code 3 _ rfl
  have hdistance : Bus.read b ⟨0, 0x604⟩ = (0xFB, b) := h.code 4 _ rfl
  have hi : Instruction.ofOpcode 0x80 = ⟨.bra, .relative, 2⟩ := by decide +kernel
  rw [machine_step_fetched (decide_turning h a x dbr 0x603 cycles) hopcode hi]
  have hrun : ((Action.execute ⟨.bra, .relative, 2⟩).run
      ⟨(Core.turning a x dbr 0x603 cycles).wake, b⟩).2 =
      let p := Bus.read b ⟨0, 0x604⟩
      let target := 0x605 + p.1.toInt8.toInt16.toUInt16
      ⟨((Core.turning a x dbr 0x603 cycles).charge
        (3 + Action.penaltyIf (Address.onDifferentPages 0x605 target))).mapRegisters
          fun r => { r with pc := target }, p.2⟩ := rfl
  have htarget : 0x605 + (0xFB : UInt8).toInt8.toInt16.toUInt16 = (0x600 : UInt16) := by decide
  -- The wheel lies on one page, so going back to its start costs three cycles.
  have hnear : (3 : UInt64) + Action.penaltyIf (Address.onDifferentPages 0x605 0x600) = 3 := by
    decide
  simp only [hdistance, htarget, hnear] at hrun
  rw [hrun]
  rfl

/-- The machine after some cycles, as often as it stands before the branch. -/
def spinning (b : B) (n : Nat) : Machine B :=
  ⟨.turning 0xFFFF 1 2 0x603 (UInt64.ofNat n), b⟩

/-- A turn takes a branch and the longest block move. The run goes on with it as long as its budget
    is not spent before the move. -/
theorem runTo_turn (h : Wheel b) {n limit : Nat} (hn : n + 3 < limit)
    (hroom : limit + longestStep < UInt64.size) :
    (runTo (UInt64.ofNat limit) (spinning b n) []).1 =
      (runTo (UInt64.ofNat limit) (spinning b (n + 458755)) []).1 := by
  rw [longestStep] at hroom
  have hlt : ∀ {j k : Nat}, j < k → k ≤ limit + 458752 → UInt64.ofNat j < UInt64.ofNat k :=
    fun hjk hk => (UInt64.ofNat_lt_iff_lt (by omega) (by omega)).mpr hjk
  have hback : (spinning b n).step.machine =
      ⟨.turning 0xFFFF 1 2 0x600 (UInt64.ofNat (n + 3)), b⟩ := by
    rw [UInt64.ofNat_add n 3]
    exact step_back h 0xFFFF 1 2 (UInt64.ofNat n)
  have hmove : (⟨.turning 0xFFFF 1 2 0x600 (UInt64.ofNat (n + 3)), b⟩ : Machine B).step.machine =
      spinning b (n + 458755) := by
    -- A whole block of 65536 bytes at seven cycles each.
    have hcycles : UInt64.ofNat (n + 458755) = UInt64.ofNat (n + 3) + 458752 := by
      rw [show n + 458755 = n + 3 + 458752 by omega, UInt64.ofNat_add]
      rfl
    rw [spinning, hcycles]
    exact step_move h (a := 0xFFFF) (x := 1) rfl 2 (UInt64.ofNat (n + 3))
  have hbegins : (spinning b n).core.cycles < UInt64.ofNat limit := hlt (by omega) (by omega)
  have hgoes : UInt64.ofNat (n + 3) < UInt64.ofNat limit := hlt hn (by omega)
  rw [runTo_of_moving rfl hbegins (by rw [hback]; exact hlt (by omega) (by omega)), hback,
    runTo_of_moving rfl hgoes (by rw [hmove]; exact hlt (by omega) (by omega)), hmove,
    machine_runTo]

/-- Any number of turns, as long as the last one begins within the budget. -/
theorem runTo_turns (h : Wheel b) {n limit : Nat} (k : Nat)
    (hn : n + 458755 * k < limit + 458752) (hroom : limit + longestStep < UInt64.size) :
    (runTo (UInt64.ofNat limit) (spinning b n) []).1 =
      (runTo (UInt64.ofNat limit) (spinning b (n + 458755 * k)) []).1 := by
  induction k generalizing n with
  | zero => rfl
  | succ k ih =>
      have hnext : n + 458755 + 458755 * k = n + 458755 * (k + 1) := by omega
      rw [runTo_turn h (by omega) hroom, ih (by omega), hnext]

/-- The largest budget of 32 bits is spent in the middle of a block. -/
theorem run_turning (h : Wheel b) :
    ((⟨.turning 0 0 0 0x600 0, b⟩ : Machine B).run 0xFFFFFFFF).machine = spinning b 4295323072 := by
  have hfirst : (⟨.turning 0 0 0 0x600 0, b⟩ : Machine B).step.machine = spinning b 7 :=
    step_move h (a := 0) (x := 0) rfl 0 0
  have hturns : (runTo (UInt64.ofNat 0xFFFFFFFF) (spinning b 7) []).1 =
      (runTo (UInt64.ofNat 0xFFFFFFFF) (spinning b 4295323072) []).1 :=
    runTo_turns h 9363 (by decide) (by decide)
  -- The last turn began below the budget and ends beyond it.
  have hspent : ¬ (spinning b 4295323072).core.cycles < UInt64.ofNat 0xFFFFFFFF := by
    show ¬ UInt64.ofNat 4295323072 < UInt64.ofNat 0xFFFFFFFF
    decide
  have hbudget : (0 : UInt64) < UInt64.ofNat 0xFFFFFFFF := by decide
  have hgrown : (0 : UInt64) < UInt64.ofNat 7 := by decide
  have htarget : target 0 0xFFFFFFFF = UInt64.ofNat 0xFFFFFFFF := target_of_room (by decide)
  have hstart : (Core.turning 0 0 0 0x600 0).cycles = 0 := rfl
  rw [machine_run, hstart, htarget, runTo_of_moving rfl hbudget (by rw [hfirst]; exact hgrown),
    hfirst, machine_runTo, hturns, runTo_eq_ready, if_neg hspent]

end Machine

namespace Board

/-! ## The wheel on a board -/

/-- A board runs its machine. Only what it tells is different. -/
theorem machine_run (b : Board) (budget : UInt32) :
    (b.run budget).2.machine = (b.machine.run budget.toUInt64).machine := rfl

/-- The number that a run gives is what the count has grown by, cut to 32 bits. -/
theorem result_run (b : Board) (budget : UInt32) :
    (b.run budget).1 =
      ((b.run budget).2.machine.core.cycles - b.machine.core.cycles).toUInt32 := rfl

/-- The bus of a board that has the program of the wheel, which moves blocks of bank 2. -/
theorem wheel_wired {r : Region} (h : Whole r) :
    Machine.Wheel (wired (r.put (Address.ofValue 0x600).value wheel)) where
  code k v hk := by
    have hlt : k < 5 := (List.getElem?_eq_some_iff.mp hk).1
    have hx : (Address.mk 0 (0x600 + UInt16.ofNat k)).value.toNat = 0x600 + k := by
      obtain rfl | rfl | rfl | rfl | rfl : k = 0 ∨ k = 1 ∨ k = 2 ∨ k = 3 ∨ k = 4 := by omega
      all_goals rfl
    have hmemory : memorySize = 0x20000 := rfl
    rw [read_wired (h.put _ _) (by rw [hx]; omega),
      get_put_of_getElem? (a := .ofValue 0x600) h (by decide) hk hx]
  unanswered offset := by rw [read_wired_above (h.put _ _) (memorySize_le_value offset)]
  lost offset v := write_wired_above (h.put _ _) (memorySize_le_value offset) v
  quiet := rfl

/-- A board with the program of the wheel is ready to turn it. -/
theorem wheel_loaded : ∃ b : Backplane Ram, Machine.Wheel b ∧
    (new.loadProgram wheel 0x600).machine = ⟨.turning 0 0 0 0x600 0, b⟩ := by
  have hfit : (Address.ofValue 0x600).value.toNat + wheel.length ≤ memorySize := by decide
  obtain ⟨r, hwhole, hmachine⟩ := loadProgram_wired hfit
  exact ⟨_, wheel_wired hwhole, hmachine⟩

end Board

/-! ## What the board tells -/

/-- The number that a run on the board gives is the number of cycles that it takes, modulo the
    32-bit numbers. So it is that number exactly when there are no more cycles, which is the case at
    least when the budget leaves room for the longest instruction. The count of the machine must
    not come near its own end. -/
theorem board_tells_cycles_iff (b : Board) (budget : UInt32)
    (hroom : b.machine.core.cycles.toNat + budget.toNat + Machine.longestStep < UInt64.size) :
    let before := b.machine.core.cycles.toNat
    let after := (b.run budget).2.machine.core.cycles.toNat
    let told := (b.run budget).1.toNat
    before ≤ after ∧ after - before ≤ budget.toNat + Machine.longestStep ∧
      told = (after - before) % UInt32.size ∧
      (told = after - before ↔ after - before < UInt32.size) ∧
      (budget.toNat + Machine.longestStep < UInt32.size → told = after - before) := by
  intro before after told
  have hbudget : budget.toUInt64.toNat = budget.toNat := UInt32.toNat_toUInt64 budget
  have hroom' : b.machine.core.cycles.toNat + budget.toUInt64.toNat + Machine.longestStep <
      UInt64.size := by
    rw [hbudget]
    exact hroom
  obtain ⟨hgrowth, -, hmost⟩ := Machine.run_result b.machine budget.toUInt64 hroom'
  rw [hbudget] at hmost
  have hafter : after = before + (b.machine.run budget.toUInt64).result.toNat := hgrowth
  have htold : told = (b.machine.run budget.toUInt64).result.toNat % UInt32.size :=
    UInt64.toNat_toUInt32 _
  have hspent : after - before = (b.machine.run budget.toUInt64).result.toNat := by
    rw [hafter, Nat.add_sub_cancel_left]
  have hpos : 0 < UInt32.size := by decide
  rw [hspent, htold]
  refine ⟨by rw [hafter]; exact Nat.le_add_right _ _, hmost, rfl, ?_, fun hlt => ?_⟩
  · exact ⟨fun heq => heq ▸ Nat.mod_lt _ hpos, Nat.mod_eq_of_lt⟩
  · exact Nat.mod_eq_of_lt (Nat.lt_of_le_of_lt hmost hlt)

/-- A new board, and the largest budget that leaves room for the longest instruction. -/
theorem new_board_tells_cycles :
    let b := Board.new
    let ran := b.run 0xFFF8FFFF
    b.machine.core.cycles.toNat + (0xFFF8FFFF : UInt32).toNat + Machine.longestStep <
        UInt64.size ∧
      (0xFFF8FFFF : UInt32).toNat + Machine.longestStep + 1 = UInt32.size ∧
      ran.1.toNat = ran.2.machine.core.cycles.toNat - b.machine.core.cycles.toNat := by
  intro b ran
  have hroom : b.machine.core.cycles.toNat + (0xFFF8FFFF : UInt32).toNat + Machine.longestStep <
      UInt64.size := by
    rw [Board.cycles_new]
    decide
  obtain ⟨-, -, -, -, htold⟩ := board_tells_cycles_iff b 0xFFF8FFFF hroom
  exact ⟨hroom, by decide, htold (by decide)⟩

/-- A run with the largest budget takes more cycles than there are 32-bit numbers. What the board
    tells is the rest. -/
theorem cycles_cut :
    let b := Board.new.loadProgram wheel 0x600
    let ran := b.run 0xFFFFFFFF
    b.machine.core.cycles = 0 ∧ ran.2.machine.core.cycles = 4295323072 ∧ ran.1 = 355776 ∧
      ran.1.toNat ≠ ran.2.machine.core.cycles.toNat - b.machine.core.cycles.toNat := by
  intro b ran
  obtain ⟨bus, hwheel, hmachine⟩ := Board.wheel_loaded
  have hbefore : b.machine.core.cycles = 0 := congrArg (·.core.cycles) hmachine
  have hafter : ran.2.machine = Machine.spinning bus 4295323072 := by
    rw [← Machine.run_turning hwheel, ← hmachine]
    exact Board.machine_run b _
  have hcycles : ran.2.machine.core.cycles = 4295323072 := congrArg (·.core.cycles) hafter
  have htold : ran.1 = 355776 := by
    have hresult : ran.1 = (ran.2.machine.core.cycles - b.machine.core.cycles).toUInt32 :=
      Board.result_run b _
    rw [hresult, hcycles, hbefore]
    rfl
  refine ⟨hbefore, hcycles, htold, ?_⟩
  rw [htold, hcycles, hbefore]
  decide

end W65C816
