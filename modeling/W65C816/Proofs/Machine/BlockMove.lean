import W65C816.Proofs.Machine.Cycles
import W65C816.Proofs.Machine.Footprint

/-!
# Block moves

A block move carries one byte after another, and both its ends wrap in their banks at the width of
the index registers. Blocks may overlap, and then a byte that has been written can be read again.

* `Action.CountsDown` is the loop as it goes by the accumulator, which `Action.moveBytes` does.
* `Registers.carried` is what becomes of the registers.
* `Direction.gap` is the distance by which the destination is ahead of the source. Only a block that
  is longer than that is read where it has been written; `Action.moveBytes_copies` is the induction
  over the bytes.
* `block_move_copies` puts this together.
-/

namespace W65C816

/-! ## Distances -/

/-- How far the destination is ahead of the source. -/
def Direction.gap : Direction → UInt16 → UInt16 → UInt16
  | up, source, destination => destination - source
  | down, source, destination => source - destination

namespace Width

variable (w : Width) (direction : Direction)

/-- The source gets to where the destination began after as many bytes as they are apart. -/
theorem truncate_after_eq_iff {x y : UInt16} (hy : w.truncate y = y) (k : Nat) :
    w.truncate (direction.after x k) = y ↔
      k % w.modulus = (w.truncate (direction.gap x y)).toNat := by
  have hx := x.toNat_lt
  rw [← hy, ← UInt16.toNat_inj]
  cases direction with
  | up =>
      simp only [Direction.after, Direction.gap, toNat_truncate, UInt16.toNat_add,
        UInt16.toNat_sub, UInt16.toNat_ofNat']
      cases w with
      | byte => simp only [modulus]; omega
      | word => simp only [modulus]; omega
  | down =>
      simp only [Direction.after, Direction.gap, toNat_truncate, UInt16.toNat_sub,
        UInt16.toNat_ofNat']
      cases w with
      | byte => simp only [modulus]; omega
      | word => simp only [modulus]; omega

/-- Nothing that far behind the destination, or level with it, gets to where the destination began
    before the bank comes round. -/
theorem truncate_after_ne {x y : UInt16} (hy : w.truncate y = y) {k : Nat} (hpos : 0 < k)
    (hk : k < w.modulus)
    (hgap : (w.truncate (direction.gap x y)).toNat = 0 ∨
      k < (w.truncate (direction.gap x y)).toNat) :
    w.truncate (direction.after x k) ≠ y := by
  intro heq
  have hmod := (w.truncate_after_eq_iff direction hy k).mp heq
  rw [Nat.mod_eq_of_lt hk] at hmod
  omega

theorem truncate_gap_self (y : UInt16) : (w.truncate (direction.gap y y)).toNat = 0 := by
  have hgap : direction.gap y y = 0 := by
    cases direction with
    | up => exact UInt16.sub_self y
    | down => exact UInt16.sub_self y
  rw [hgap, toNat_truncate, UInt16.toNat_zero, Nat.zero_mod]

theorem truncate_sub (u v : UInt16) :
    w.truncate (w.truncate u - w.truncate v) = w.truncate (u - v) := by
  have hu := u.toNat_lt
  have hv := v.toNat_lt
  apply UInt16.toNat_inj.mp
  simp only [toNat_truncate, UInt16.toNat_sub]
  cases w with
  | byte => simp only [modulus]; omega
  | word => simp only [modulus]; omega

/-- Both ends move by one byte, so they stay as far apart. -/
theorem truncate_gap_next (x y : UInt16) :
    w.truncate (direction.gap (w.truncate (direction.next x)) (w.truncate (direction.next y))) =
      w.truncate (direction.gap x y) := by
  cases direction with
  | up =>
      have hgap : y + 1 - (x + 1) = y - x := by grind
      exact (w.truncate_sub (y + 1) (x + 1)).trans (congrArg w.truncate hgap)
  | down =>
      have hgap : x - 1 - (y - 1) = x - y := by grind
      exact (w.truncate_sub (x - 1) (y - 1)).trans (congrArg w.truncate hgap)

end Width

/-! ## Registers -/

/-- The registers after `n` bytes of a block. -/
def Registers.carried (r : Registers) (direction : Direction) (n : Nat) : Registers :=
  { r with
    a := r.a - UInt16.ofNat n
    x := r.indexed (direction.after r.x n)
    y := r.indexed (direction.after r.y n) }

namespace Registers

/-- When nothing is to be moved, the registers stay as they are, since the index registers are cut
    to their width already. -/
theorem carried_zero {r : Registers} (direction : Direction) (hx : r.indexed r.x = r.x)
    (hy : r.indexed r.y = r.y) : r.carried direction 0 = r := by
  have ha : r.a - UInt16.ofNat 0 = r.a := UInt16.sub_zero _
  rw [carried, Direction.after_zero, Direction.after_zero, hx, hy, ha]

theorem carried_next (r : Registers) (direction : Direction) (n : Nat) :
    ({ r with
      x := r.indexed (direction.next r.x)
      y := r.indexed (direction.next r.y)
      a := r.a - 1 } : Registers).carried direction n = r.carried direction (n + 1) := by
  have ha : r.a - 1 - UInt16.ofNat n = r.a - UInt16.ofNat (n + 1) := by
    rw [UInt16.ofNat_add]
    grind
  rw [carried, carried, ← ha, ← r.indexed_after_next, ← r.indexed_after_next]
  rfl

end Registers

namespace Action

/-! ## The loop -/

section Loop

variable {B : Type} [Bus B] {direction : Direction} {source destination : UInt8} {cycles : UInt64}

/-- The loop of a block move. It moves a byte and counts it, and is done when the accumulator has
    counted below zero. -/
inductive CountsDown (direction : Direction) (source destination : UInt8) (cycles : UInt64) :
    Machine B → Nat → Machine B → Prop where
  | last {m : Machine B} (h : (afterByte direction source destination cycles m).core.a = 0xFFFF) :
      CountsDown direction source destination cycles m 1
        (afterByte direction source destination cycles m)
  | more {m m' : Machine B} {n : Nat}
      (h : (afterByte direction source destination cycles m).core.a ≠ 0xFFFF)
      (hrest : CountsDown direction source destination cycles
        (afterByte direction source destination cycles m) n m') :
      CountsDown direction source destination cycles m (n + 1) m'

/-- The loop is done after one byte more than the accumulator says. -/
theorem moveBytes_countsDown {n : Nat} {m : Machine B} (ha : m.core.a.toNat = n) :
    CountsDown direction source destination cycles m (n + 1)
      ((moveBytes direction source destination cycles (n + 1)).run m).2 := by
  induction n generalizing m with
  | zero =>
      have hcount : (afterByte direction source destination cycles m).core.a = m.core.a - 1 := rfl
      have hzero : m.core.a = 0 := UInt16.toNat_inj.mp ha
      refine .last ?_
      rw [hcount, hzero]
      rfl
  | succ n ih =>
      have hcount : (afterByte direction source destination cycles m).core.a = m.core.a - 1 := rfl
      have hlt := m.core.a.toNat_lt
      have hnext : (afterByte direction source destination cycles m).core.a.toNat = n := by
        rw [hcount, UInt16.toNat_sub, ha, UInt16.toNat_one]
        omega
      refine .more (fun hdone => ?_) (ih hnext)
      have hlast : (0xFFFF : UInt16).toNat = 0xFFFF := rfl
      rw [hdone, hlast] at hnext
      omega

end Loop

variable {direction : Direction} {source destination : UInt8} {cycles : UInt64}
  {m : Machine Memory}

/-- By induction on the bytes that remain: each of them carries the registers over one. -/
theorem moveBytes_registers (n : Nat) (hx : m.core.indexed m.core.x = m.core.x)
    (hy : m.core.indexed m.core.y = m.core.y) :
    ((moveBytes direction source destination cycles n).run m).2.core.toRegisters =
      m.core.carried direction n := by
  induction n generalizing m with
  | zero => exact (Registers.carried_zero direction hx hy).symm
  | succ n ih =>
      refine (ih (m := afterByte direction source destination cycles m)
        (m.core.indexed_indexed _) (m.core.indexed_indexed _)).trans ?_
      exact m.core.toRegisters.carried_next direction n

/-- A byte arrives as it was before the block moved, unless it has been written over by then. A
    block that is no longer than the distance of its ends is not written over before it is read, and
    one that is moved onto itself does not change. -/
theorem moveBytes_copies (n : Nat) (hx : m.core.indexed m.core.x = m.core.x)
    (hy : m.core.indexed m.core.y = m.core.y) (hn : n ≤ m.core.status.indexWidth.modulus)
    (hapart : source ≠ destination ∨
      (m.core.indexed (direction.gap m.core.x m.core.y)).toNat = 0 ∨
      n ≤ (m.core.indexed (direction.gap m.core.x m.core.y)).toNat) {k : Nat} (hk : k < n) :
    ((moveBytes direction source destination cycles n).run m).2.bus.get
        ⟨destination, m.core.indexed (direction.after m.core.y k)⟩ =
      m.bus.get ⟨source, m.core.indexed (direction.after m.core.x k)⟩ := by
  -- By induction on the bytes that remain. The first byte must not be written again by a later one,
  -- and must not have been written to where a later one is copied from.
  induction n generalizing m k with
  | zero => exact absurd hk (Nat.not_lt_zero k)
  | succ n ih =>
      cases k with
      | zero =>
          -- The rest of the block goes to other places.
          have hother : ∀ j, j < n → (⟨destination, m.core.y⟩ : Address) ≠
              ⟨destination, m.core.indexed (direction.after m.core.y (j + 1))⟩ := by
            intro j hj heq
            exact Width.truncate_after_ne _ direction hy (Nat.succ_pos j) (by omega)
              (.inl (Width.truncate_gap_self _ _ _)) (congrArg Address.offset heq).symm
          rw [Direction.after_zero, Direction.after_zero, hx, hy]
          refine (moveBytes_get (m := afterByte direction source destination cycles m) n
            (m.core.indexed_indexed _) ?_).trans ?_
          · simp only [y_afterByte, indexed_afterByte, Registers.indexed_after_next]
            exact hother
          · rw [bus_afterByte, Memory.get_set, if_pos rfl]
      | succ k =>
          -- The byte has not been written over by the one that went before it.
          have hkept : (⟨source, m.core.indexed (direction.after m.core.x (k + 1))⟩ : Address) ≠
              ⟨destination, m.core.y⟩ := by
            intro heq
            obtain ⟨hbank, hoffset⟩ := Address.mk.inj heq
            rcases hapart with hbanks | hgap
            · exact hbanks hbank
            · exact Width.truncate_after_ne _ direction hy (Nat.succ_pos k) (by omega)
                (hgap.imp_right (Nat.lt_of_lt_of_le hk)) hoffset
          have hgap : m.core.indexed (direction.gap (m.core.indexed (direction.next m.core.x))
              (m.core.indexed (direction.next m.core.y))) =
                m.core.indexed (direction.gap m.core.x m.core.y) :=
            Width.truncate_gap_next _ direction _ _
          have hnext := ih (m := afterByte direction source destination cycles m)
            (m.core.indexed_indexed _) (m.core.indexed_indexed _) (Nat.le_of_succ_le hn) ?_
            (Nat.lt_of_succ_lt_succ hk)
          · simp only [x_afterByte, y_afterByte, indexed_afterByte,
              Registers.indexed_after_next] at hnext
            rw [← Memory.get_set_of_ne m.bus hkept (m.bus.get ⟨source, m.core.x⟩)]
            exact hnext
          · simp only [x_afterByte, y_afterByte, indexed_afterByte, hgap]
            exact hapart.imp_right (Or.imp_right Nat.le_of_succ_le)

end Action

/-! ## Steps -/

/-- Checked over the table: both bytes of the operand are banks. -/
theorem Instruction.mode_of_movesBlock :
    ∀ i ∈ table.toList, i.movesBlock → i.mode = .blockMove := by
  decide +kernel

namespace Machine

variable {m : Machine Memory}

/-- The machine before the first byte of a block. It has read the banks and taken the one that is
    written to. -/
def blockStart (m : Machine Memory) : Machine Memory :=
  { m with
    core := m.core.wake.mapRegisters fun r => { r with dbr := m.bus.get m.core.operandAddress } }

/-- A step that moves a block is its loop, started with the banks that the operand names. -/
theorem step_moveBlock {direction : Direction} (h : m.core.decide m.irqLine = .instruction)
    (heffect : m.fetched.effect = .moveBlock direction) :
    let last := ((Action.moveBytes direction (m.bus.get (m.core.programAddress.inBank 2))
      (m.bus.get m.core.operandAddress) 7 (m.core.a.toNat + 1)).run m.blockStart).2
    m.step.machine.bus = last.bus ∧
      m.step.machine.core.toRegisters = last.core.toRegisters.skip 3 := by
  have htable := Instruction.ofOpcode_mem (m.bus.get m.core.programAddress)
  have hmove := m.fetched.movesBlock_iff.mpr ⟨direction, heffect⟩
  have hcycles : m.fetched.baseCycles.toUInt64 = 7 := by
    rw [Instruction.baseCycles_of_movesBlock m.fetched htable hmove]
    rfl
  have hsize : m.fetched.size m.core.wake.status = 3 := by
    rw [Instruction.size, Instruction.mode_of_movesBlock m.fetched htable hmove]
    rfl
  have hrun := Action.execute_moveBlock heffect { m with core := m.core.wake }
  rw [hcycles, hsize] at hrun
  rw [(step_instruction_run h).1]
  simp only [Core.publish]
  rw [hrun]
  exact ⟨rfl, rfl⟩

end Machine

/-- What a block move does.

    * The loop goes by the accumulator, and is done after one byte more than it says. Every byte
      takes seven cycles.
    * The accumulator ends below zero, and X and Y behind the block. The data bank is the one that
      has been written to. The program goes on after the instruction, and no other register has
      changed.
    * Nothing has changed in memory but the places of the block.
    * If these are all different, and the block is no longer than the distance of its ends, then
      every byte has arrived as it was before the step. So it has if the ends are the same, or in
      different banks. -/
theorem block_move_copies {m : Machine Memory} (h : m.Reachable)
    (hstep : m.core.decide m.irqLine = .instruction) (hmove : m.fetched.movesBlock) :
    let direction := if m.fetched.operation = .mvn then Direction.up else .down
    let source := m.bus.get (m.core.programAddress.inBank 2)
    let destination := m.bus.get m.core.operandAddress
    let n := m.core.a.toNat + 1
    let gap := (m.core.indexed (direction.gap m.core.x m.core.y)).toNat
    let after := m.step.machine
    (∃ last, Action.CountsDown direction source destination 7 m.blockStart n last ∧
      after.bus = last.bus ∧ after.core.toRegisters = last.core.toRegisters.skip 3) ∧
    m.step.result.toNat = 7 * n ∧
    after.core.toRegisters = { m.core.toRegisters with
      a := 0xFFFF
      x := m.core.indexed (direction.after m.core.x n)
      y := m.core.indexed (direction.after m.core.y n)
      dbr := destination
      pc := m.core.pc + 3 } ∧
    (∀ a, (∀ k, k < n → a ≠ ⟨destination, m.core.indexed (direction.after m.core.y k)⟩) →
      after.bus.get a = m.bus.get a) ∧
    (n ≤ m.core.status.indexWidth.modulus → (source ≠ destination ∨ gap = 0 ∨ n ≤ gap) →
      ∀ k, k < n → after.bus.get ⟨destination, m.core.indexed (direction.after m.core.y k)⟩ =
        m.bus.get ⟨source, m.core.indexed (direction.after m.core.x k)⟩) := by
  obtain ⟨direction, heffect⟩ := m.fetched.movesBlock_iff.mp hmove
  rw [← Instruction.direction_eq heffect]
  intro _ source destination n gap after
  have hx : m.core.indexed m.core.x = m.core.x := Width.truncate_of_fits h.sound.x
  have hy : m.core.indexed m.core.y = m.core.y := Width.truncate_of_fits h.sound.y
  obtain ⟨hbus, hregisters⟩ := Machine.step_moveBlock hstep heffect
  have hbounds := Machine.step_bounds (m := m) (by rw [hstep]; exact nofun)
  rw [if_pos ⟨hstep, hmove⟩] at hbounds
  refine ⟨⟨_, Action.moveBytes_countsDown rfl, hbus, hregisters⟩, hbounds, ?_, ?_, ?_⟩
  -- The count runs out below zero.
  · have hdone : m.core.a - UInt16.ofNat n = 0xFFFF := by
      apply UInt16.toNat_inj.mp
      have hlt := m.core.a.toNat_lt
      have hlast : (0xFFFF : UInt16).toNat = 0xFFFF := rfl
      rw [UInt16.toNat_sub, UInt16.toNat_ofNat', hlast]
      omega
    refine hregisters.trans ?_
    rw [Action.moveBytes_registers (m := m.blockStart) n hx hy, ← hdone]
    rfl
  · intro a ha
    refine (congrArg (fun bus : Memory => bus.get a) hbus).trans ?_
    exact Action.moveBytes_get (m := m.blockStart) n hy ha
  -- What a byte is copied from is as it was before the move, by the condition on the gap.
  · intro hn hapart k hk
    refine (congrArg (fun bus : Memory => bus.get _) hbus).trans ?_
    exact Action.moveBytes_copies (m := m.blockStart) n hx hy hn hapart hk

/-- A block of three bytes that wraps at the end of a page, moved five bytes up. -/
theorem wrapped_block_moved :
    let program := Memory.blank.load 0 [0x54, 0x01, 0x01]
    let m := (Machine.start ((program.load 0x100FE [0x11, 0x22]).load 0x10000 [0x33])
      .standard).machine
    let m := ((m.perform (.setA 2)).machine.perform (.setX 0xFE)).machine
    let m := (m.perform (.setY 0x03)).machine
    m.Reachable ∧ m.step.result.toNat = 21 ∧ m.step.machine.bus.get ⟨1, 0x0005⟩ = 0x33 := by
  intro program m₀ m₁ m
  have hreachable : m.Reachable :=
    (((Machine.Reachable.start _ _).perform (.setA 2)).perform (.setX 0xFE)).perform (.setY 0x03)
  obtain ⟨-, hcycles, -, -, hcopied⟩ :=
    block_move_copies hreachable (by decide +kernel) (by decide +kernel)
  have hlast := hcopied (by decide +kernel) (.inr (.inr (by decide +kernel))) 2 (by decide +kernel)
  have hto : (⟨m.bus.get m.core.operandAddress, m.core.indexed (Direction.up.after m.core.y 2)⟩ :
      Address) = ⟨1, 0x0005⟩ := by decide +kernel
  have hfrom : m.bus.get ⟨m.bus.get (m.core.programAddress.inBank 2),
      m.core.indexed (Direction.up.after m.core.x 2)⟩ = 0x33 := by decide +kernel
  have hup : (if m.fetched.operation = .mvn then Direction.up else .down) = .up := by
    decide +kernel
  rw [hup, hto, hfrom] at hlast
  exact ⟨hreachable, hcycles, hlast⟩

end W65C816
