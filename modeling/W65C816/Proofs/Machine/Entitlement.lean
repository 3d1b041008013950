import W65C816.Proofs.Machine.Inversion
import W65C816.Proofs.Machine.Reachable

/-!
# Who may change what

Most registers and flags of the processor belong to a handful of operations, and no other
instruction touches them, whatever its mode and its operand.

* A `Part` is such a register or flag. `Part.Kept` says that it has come through a change.
* `Instruction.MayChange` is the table of who may change which part. It depends on the mode of the
  processor, because in emulation mode the width flags and the program bank are out of reach.
* `Instruction.yields_kept` goes through all operations with the inversion of `Effect.Yields`, and
  `step_changes_entitled` says it of the steps of reachable machines.
-/

namespace W65C816

/-! ## Parts -/

/-- A part of the processor that few operations may change. -/
inductive Part where
  | emulation
  | narrowAccumulator
  | narrowIndex
  | irqDisable
  | decimal
  | overflow
  | breakFlag
  | direct
  | dataBank
  | programBank
  | x
  | y
  deriving DecidableEq, Repr

namespace Part

/-- The part is the same afterwards. Of the interrupt disable flag it is only asked that it is not
    cleared: many have the right to set it. -/
def Kept (r r' : Registers) : Part → Prop
  | emulation => r'.status.emulation = r.status.emulation
  | narrowAccumulator => r'.status.narrowAccumulator = r.status.narrowAccumulator
  | narrowIndex => r'.status.narrowIndex = r.status.narrowIndex
  | irqDisable => r.status.irqDisable = true → r'.status.irqDisable = true
  | decimal => r'.status.decimal = r.status.decimal
  | overflow => r'.status.overflow = r.status.overflow
  | breakFlag => r'.status.breakFlag = r.status.breakFlag
  | direct => r'.d = r.d
  | dataBank => r'.dbr = r.dbr
  | programBank => r'.pbr = r.pbr
  | x => r'.x = r.x
  | y => r'.y = r.y

variable {r r' r'' : Registers} {p : Part}

theorem Kept.trans (h : p.Kept r r') (h' : p.Kept r' r'') : p.Kept r r'' := by
  cases p with
  | irqDisable => exact fun hi => h' (h hi)
  | _ => exact Eq.trans h' h

/-- Registers that differ elsewhere at most. -/
theorem kept_of_eq (hstatus : r'.status = r.status) (hd : r'.d = r.d) (hdbr : r'.dbr = r.dbr)
    (hpbr : r'.pbr = r.pbr) (hx : r'.x = r.x) (hy : r'.y = r.y) : p.Kept r r' := by
  cases p with
  | direct => exact hd
  | dataBank => exact hdbr
  | programBank => exact hpbr
  | x => exact hx
  | y => exact hy
  | irqDisable => exact fun hi => hstatus.symm ▸ hi
  | _ => exact congrArg _ hstatus

theorem kept_moveStack (r : Registers) (s : UInt16) : p.Kept r (r.moveStack s) :=
  kept_of_eq rfl rfl rfl rfl rfl rfl

theorem kept_goTo (r : Registers) (pc : UInt16) : p.Kept r { r with pc } :=
  kept_of_eq rfl rfl rfl rfl rfl rfl

theorem Kept.skip (h : p.Kept r r') (n : UInt16) : p.Kept r (r'.skip n) :=
  h.trans (kept_goTo r' _)

theorem kept_setAccumulator (r : Registers) (v : UInt16) : p.Kept r (r.setAccumulator v) := by
  rw [Registers.setAccumulator]
  cases r.status.accumulatorWidth with
  | byte => exact kept_of_eq rfl rfl rfl rfl rfl rfl
  | word => exact kept_of_eq rfl rfl rfl rfl rfl rfl

/-- A jump may load the program bank and nothing else. -/
theorem kept_arrive (hp : p ≠ .programBank) (r : Registers) (reach : Reach) (target : Address) :
    p.Kept r (r.arrive reach target) := by
  cases reach with
  | near => exact kept_goTo r target.offset
  | far =>
      cases p with
      | programBank => exact absurd rfl hp
      | irqDisable => exact id
      | _ => rfl

/-! ## Changes of flags -/

/-- Results tell of themselves in C, Z and N, which everyone may change. -/
theorem kept_results (r : Registers) (carry zero negative : Bool) :
    p.Kept r { r with status := { r.status with carry, zero, negative } } := by
  cases p with
  | irqDisable => exact id
  | _ => rfl

/-- Some results tell of an overflow as well. -/
theorem kept_overflowing (hp : p ≠ .overflow) (r : Registers)
    (carry zero negative overflow : Bool) :
    p.Kept r { r with status := { r.status with carry, zero, negative, overflow } } := by
  cases p with
  | overflow => exact absurd rfl hp
  | irqDisable => exact id
  | _ => rfl

/-- Altering an operand keeps what its flags keep, also when the operand is the accumulator. -/
theorem kept_altered {change : UInt16 → Registers → UInt16 × Status}
    (hchange : ∀ v, p.Kept r { r with status := (change v r).2 }) (h : r.Altered change r') :
    p.Kept r r' := by
  obtain ⟨v, rfl⟩ | rfl := h
  · exact hchange v
  · exact (hchange r.accumulator).trans (kept_setAccumulator _ _)

end Part

/-! ## Functions on registers -/

namespace Effect

open W65C816.Part

variable {r : Registers} {p : Part}

theorem loadAccumulator_kept (w : Width) (v : UInt16) : p.Kept r (loadAccumulator w v r) :=
  (kept_results r _ _ _).trans (kept_setAccumulator _ v)

theorem calculate_kept {f : Status → Width → UInt16 → UInt16 → UInt16 × Status} (w : Width)
    (v : UInt16) (hf : p.Kept r { r with status := (f r.status w r.accumulator v).2 }) :
    p.Kept r (calculate f w v r) :=
  hf.trans (kept_setAccumulator _ _)

/-- Unless its operand is immediate, testing bits sets the overflow flag. -/
theorem testBits_kept (hp : p ≠ .overflow) (immediate : Bool) (w : Width) (v : UInt16) :
    p.Kept r (testBits immediate w v r) := by
  cases immediate with
  | true => exact kept_results r _ _ _
  | false => exact kept_overflowing hp r _ _ _ _

theorem loadX_kept (hp : p ≠ .x) (w : Width) (v : UInt16) : p.Kept r (loadX w v r) := by
  cases p with
  | x => exact absurd rfl hp
  | irqDisable => exact id
  | _ => rfl

theorem loadY_kept (hp : p ≠ .y) (w : Width) (v : UInt16) : p.Kept r (loadY w v r) := by
  cases p with
  | y => exact absurd rfl hp
  | irqDisable => exact id
  | _ => rfl

theorem toDirect_kept (hp : p ≠ .direct) (v : UInt16) : p.Kept r (toDirect v r) := by
  cases p with
  | direct => exact absurd rfl hp
  | irqDisable => exact id
  | _ => rfl

/-- A pulled status reaches the widths in native mode only, and the break flag never. -/
theorem pullStatus_kept (hp : p ∉ [Part.irqDisable, .decimal, .overflow, .x, .y])
    (hwidths : p ∈ [Part.narrowAccumulator, .narrowIndex] → r.status.emulation = true)
    (v : UInt8) : p.Kept r (pullStatus v r) := by
  cases p with
  | irqDisable | decimal | overflow | x | y => exact absurd (by decide) hp
  | narrowAccumulator => exact if_pos (hwidths (by decide))
  | narrowIndex => exact if_pos (hwidths (by decide))
  | emulation | breakFlag | direct | dataBank | programBank => rfl

/-- A mask reaches the widths in native mode only, and the break flag never. -/
theorem assign_kept (hp : p ∉ [Part.irqDisable, .decimal, .overflow, .x, .y])
    (hwidths : p ∈ [Part.narrowAccumulator, .narrowIndex] → r.status.emulation = true)
    (v : UInt8) (state : Bool) :
    p.Kept r ({ r with status := r.status.assign v state } : Registers).narrowIndexes := by
  cases p with
  | irqDisable | decimal | overflow | x | y => exact absurd (by decide) hp
  | narrowAccumulator =>
      have he := hwidths (by decide)
      simp [Kept, Registers.narrowIndexes, Status.assign, he]
  | narrowIndex =>
      have he := hwidths (by decide)
      simp [Kept, Registers.narrowIndexes, Status.assign, he]
  | emulation | breakFlag | direct | dataBank | programBank => rfl

/-- Clearing flags makes no register narrow. -/
theorem narrow_of_clearBits (s : Status) (v : UInt8)
    (h : (s.clearBits v).indexWidth = .byte) : s.indexWidth = .byte := by
  cases he : s.emulation with
  | true => simp [Status.indexWidth, he]
  | false =>
      cases hx : s.narrowIndex with
      | true => simp [Status.indexWidth, hx]
      | false => simp [Status.indexWidth, Status.clearBits, Status.assign, he, hx] at h

/-- Switching modes can change the width flags and narrow the index registers. -/
theorem exchangeCarry_kept
    (hp : p ∉ [Part.emulation, .narrowAccumulator, .narrowIndex, .x, .y]) :
    p.Kept r (exchangeCarry r) := by
  cases p with
  | emulation | narrowAccumulator | narrowIndex | x | y => exact absurd (by decide) hp
  | irqDisable => exact id
  | decimal | overflow | breakFlag | direct | dataBank | programBank => rfl

end Effect

/-! ## The table -/

namespace Instruction

/-- Who may change which part, in emulation mode or in native mode. Nobody may change the break
    flag. The index registers may also be changed by new widths, but see `Registers.Narrowed`. -/
def MayChange (i : Instruction) (emulation : Bool) : Part → Prop
  | .emulation => i.operation = .xce
  | .narrowAccumulator | .narrowIndex =>
      i.operation = .xce ∨ i.operation ∈ [.rep, .sep, .plp, .rti] ∧ emulation = false
  | .irqDisable => i.operation ∈ [.cli, .rep, .plp, .rti]
  | .decimal => i.operation ∈ [.cld, .sed, .rep, .sep, .plp, .rti, .brk, .cop]
  | .overflow =>
      i.operation ∈ [.adc, .sbc, .clv, .rep, .sep, .plp, .rti] ∨
        i.operation = .bit ∧ i.mode ≠ .immediate
  | .breakFlag => False
  | .direct => i.operation ∈ [.pld, .tcd]
  | .dataBank => i.operation ∈ [.plb, .mvn, .mvp]
  | .programBank =>
      i.operation ∈ [.jml, .jsl, .rtl, .brk, .cop] ∨ i.operation = .rti ∧ emulation = false
  | .x =>
      i.operation ∈ [.ldx, .inx, .dex, .tax, .tsx, .tyx, .plx, .mvn, .mvp] ∨
        i.operation ∈ [.sep, .plp, .rti, .xce]
  | .y =>
      i.operation ∈ [.ldy, .iny, .dey, .tay, .txy, .ply, .mvn, .mvp] ∨
        i.operation ∈ [.sep, .plp, .rti, .xce]

variable {i : Instruction} {p q : Part} {e : Bool}

theorem ne_of_mayChange (hp : ¬ i.MayChange e p) (hq : i.MayChange e q) : p ≠ q := by
  rintro rfl
  exact hp hq

/-- Where the widths may not be changed by an operation that loads flags, the mode forbids it. -/
theorem emulation_of_not_mayChange (hi : i.operation ∈ [.rep, .sep, .plp, .rti])
    (hp : ¬ i.MayChange e p) (hwidth : p ∈ [Part.narrowAccumulator, .narrowIndex]) :
    e = true := by
  cases e with
  | true => rfl
  | false =>
      refine absurd ?_ hp
      simp only [List.mem_cons, List.not_mem_nil, or_false] at hwidth
      rcases hwidth with rfl | rfl
      · exact .inr ⟨hi, rfl⟩
      · exact .inr ⟨hi, rfl⟩

/-- Who loads all flags may change whatever depends on them. -/
theorem mayChange_of_pulls (hi : i.operation ∈ [.plp, .rti])
    (hp : p ∈ [Part.irqDisable, .decimal, .overflow, .x, .y]) : i.MayChange e p := by
  simp only [List.mem_cons, List.not_mem_nil, or_false] at hi hp
  rcases hi with hi | hi <;> rcases hp with rfl | rfl | rfl | rfl | rfl <;> simp [MayChange, hi]

open Effect W65C816.Part in
/-- What an instruction may not change, it keeps. -/
theorem yields_kept (i : Instruction) {n : UInt16} {r r' : Registers} (hr : r.Sound)
    (h : i.effect.Yields n r r') (hp : ¬ i.MayChange r.status.emulation p) : p.Kept r r' := by
  -- For each family of operations, `h` is what its effect yields. Whatever that changes is a part
  -- that `hp` excludes.
  obtain ⟨operation, mode, baseCycles⟩ := i
  cases operation with
  | adc | sbc =>
      obtain ⟨v, -, rfl⟩ := h
      have hne := ne_of_mayChange (q := .overflow) hp (.inl (by simp))
      exact (calculate_kept _ v (kept_overflowing hne r _ _ _ _)).skip n
  | and | ora | eor | lda =>
      obtain ⟨v, -, rfl⟩ := h
      exact (loadAccumulator_kept _ _).skip n
  | cmp | cpx | cpy =>
      obtain ⟨v, -, rfl⟩ := h
      exact (kept_results r _ _ _).skip n
  | bit =>
      obtain ⟨v, -, rfl⟩ := h
      by_cases hmode : mode = .immediate
      · subst hmode
        exact (kept_results r _ _ _).skip n
      · have hne := ne_of_mayChange (q := .overflow) hp (.inr ⟨rfl, hmode⟩)
        exact (testBits_kept hne _ _ v).skip n
  | tsb | trb | asl | lsr | rol | ror | inc | dec =>
      obtain ⟨now, hnow, rfl⟩ := h
      exact (kept_altered (fun v => kept_results r _ _ _) hnow).skip n
  | ldx =>
      obtain ⟨v, -, rfl⟩ := h
      exact (loadX_kept (ne_of_mayChange (q := .x) hp (.inl (by simp))) _ v).skip n
  | ldy =>
      obtain ⟨v, -, rfl⟩ := h
      exact (loadY_kept (ne_of_mayChange (q := .y) hp (.inl (by simp))) _ v).skip n
  | sta | stx | sty | stz | nop | wdm | wai | stp =>
      obtain rfl := h
      exact kept_goTo r _
  | inx | dex | tax | tsx | tyx =>
      obtain rfl := h
      exact (loadX_kept (ne_of_mayChange (q := .x) hp (.inl (by simp))) _ _).skip n
  | iny | dey | tay | txy =>
      obtain rfl := h
      exact (loadY_kept (ne_of_mayChange (q := .y) hp (.inl (by simp))) _ _).skip n
  | txa | tya =>
      obtain rfl := h
      exact (loadAccumulator_kept _ _).skip n
  | tdc | tsc | xba =>
      obtain rfl := h
      exact (kept_results r _ _ _).skip n
  | txs | tcs =>
      obtain rfl := h
      exact (kept_moveStack r _).skip n
  | tcd =>
      obtain rfl := h
      exact (toDirect_kept (ne_of_mayChange (q := .direct) hp (by simp [MayChange])) _).skip n
  | xce =>
      -- Switching modes changes five parts at most, and `hp` excludes each of them.
      obtain rfl := h
      refine (exchangeCarry_kept ?_).skip n
      simp only [List.mem_cons, List.not_mem_nil, or_false, not_or]
      refine ⟨?_, ?_, ?_, ?_, ?_⟩ <;> exact ne_of_mayChange hp (by simp [MayChange])
  | clc | sec =>
      obtain rfl := h
      exact (kept_results r _ _ _).skip n
  | clv =>
      obtain rfl := h
      have hne := ne_of_mayChange (q := .overflow) hp (.inl (by simp))
      exact (kept_overflowing hne r _ _ _ _).skip n
  | cli =>
      obtain rfl := h
      refine Kept.skip ?_ n
      cases p with
      | irqDisable => exact absurd (by simp [MayChange]) hp
      | _ => rfl
  | sei =>
      obtain rfl := h
      refine Kept.skip ?_ n
      cases p with
      | irqDisable => exact fun _ => rfl
      | _ => rfl
  | cld | sed =>
      obtain rfl := h
      refine Kept.skip ?_ n
      cases p with
      | decimal => exact absurd (by simp [MayChange]) hp
      | irqDisable => exact id
      | _ => rfl
  | rep =>
      obtain ⟨v, rfl⟩ := h
      refine Kept.skip ?_ n
      have hwidths := emulation_of_not_mayChange (by simp) hp
      cases p with
      | irqDisable | decimal => exact absurd (by simp [MayChange]) hp
      | overflow => exact absurd (.inl (by simp)) hp
      | x | y =>
          -- `REP` can only make the indexes wider, which leaves them as they are.
          rw [hr.narrowIndexes_eq (narrow_of_clearBits r.status v)]
          rfl
      | _ => exact assign_kept (by decide) hwidths v false
  | sep =>
      obtain ⟨v, rfl⟩ := h
      refine Kept.skip ?_ n
      have hwidths := emulation_of_not_mayChange (by simp) hp
      cases p with
      | decimal => exact absurd (by simp [MayChange]) hp
      | overflow => exact absurd (.inl (by simp)) hp
      | x | y => exact absurd (.inr (by simp)) hp
      | irqDisable => exact fun hi => ite_eq_left_iff.mpr fun _ => hi
      | _ => exact assign_kept (by decide) hwidths v true
  | pha | phx | phy | php | phb | phd | phk | pea | pei | per =>
      obtain ⟨s, rfl⟩ := h
      exact (kept_moveStack r s).skip n
  | pla =>
      obtain ⟨s, v, -, rfl⟩ := h
      exact ((kept_moveStack r s).trans (loadAccumulator_kept _ v)).skip n
  | plx =>
      obtain ⟨s, v, -, rfl⟩ := h
      have hne := ne_of_mayChange (q := .x) hp (.inl (by simp))
      exact ((kept_moveStack r s).trans (loadX_kept hne _ v)).skip n
  | ply =>
      obtain ⟨s, v, -, rfl⟩ := h
      have hne := ne_of_mayChange (q := .y) hp (.inl (by simp))
      exact ((kept_moveStack r s).trans (loadY_kept hne _ v)).skip n
  | plb =>
      obtain ⟨s, v, -, rfl⟩ := h
      refine Kept.skip ?_ n
      cases p with
      | dataBank => exact absurd (by simp [MayChange]) hp
      | irqDisable => exact id
      | _ => rfl
  | pld =>
      obtain ⟨s, v, -, rfl⟩ := h
      have hne := ne_of_mayChange (q := .direct) hp (by simp [MayChange])
      exact ((kept_moveStack r s).trans (toDirect_kept hne v)).skip n
  | plp =>
      obtain ⟨s, v, -, rfl⟩ := h
      have hflags := mt (mayChange_of_pulls (by simp)) hp
      have hwidths := emulation_of_not_mayChange (by simp) hp
      exact ((kept_moveStack r s).trans (pullStatus_kept hflags hwidths _)).skip n
  | rti =>
      obtain ⟨s, bits, target, rfl⟩ := h
      have hflags := mt (mayChange_of_pulls (by simp)) hp
      have hwidths := emulation_of_not_mayChange (by simp) hp
      refine ((kept_moveStack r s).trans (pullStatus_kept hflags hwidths bits)).trans ?_
      -- In emulation mode no bank is pulled, so the program bank is kept.
      by_cases he : r.status.emulation = true
      · rw [if_pos he]
        exact kept_goTo _ _
      · rw [if_neg he]
        have hne := ne_of_mayChange (q := .programBank) hp (.inr ⟨rfl, by simpa using he⟩)
        exact kept_arrive hne _ _ target
  | bcc | bcs | beq | bne | bmi | bpl | bvc | bvs | bra | brl =>
      obtain ⟨pc, rfl⟩ := h
      exact kept_goTo r pc
  | jmp =>
      obtain ⟨target, rfl⟩ := h
      exact kept_goTo r _
  | jml =>
      obtain ⟨target, rfl⟩ := h
      exact kept_arrive (ne_of_mayChange (q := .programBank) hp (.inl (by simp))) r _ target
  | jsr | rts =>
      obtain ⟨s, target, rfl⟩ := h
      exact (kept_moveStack r s).trans (kept_goTo _ _)
  | jsl | rtl =>
      obtain ⟨s, target, rfl⟩ := h
      have hne := ne_of_mayChange (q := .programBank) hp (.inl (by simp))
      exact (kept_moveStack r s).trans (kept_arrive hne _ _ target)
  | brk | cop =>
      obtain ⟨s, pc, rfl⟩ := h
      cases p with
      | programBank => exact absurd (.inl (by simp)) hp
      | decimal => exact absurd (by simp [MayChange]) hp
      | irqDisable => exact fun _ => rfl
      | _ => rfl
  | mvn | mvp =>
      obtain ⟨destination, a, x, y, rfl⟩ := h
      refine Kept.skip ?_ n
      cases p with
      | dataBank => exact absurd (by simp [MayChange]) hp
      | x => exact absurd (.inl (by simp)) hp
      | y => exact absurd (.inl (by simp)) hp
      | irqDisable => exact id
      | _ => rfl

end Instruction

/-! ## Narrow index registers -/

namespace Registers

/-- The index registers have lost their high bytes at most. -/
structure Narrowed (r r' : Registers) : Prop where
  x : r'.x = r.x ∨ r'.x = r.x % 0x100
  y : r'.y = r.y ∨ r'.y = r.y % 0x100

/-- Index registers that become narrow lose their high bytes, and stay as they are otherwise. -/
theorem narrowIndexes_narrowed (r : Registers) (s : Status) :
    r.Narrowed ({ r with status := s } : Registers).narrowIndexes := by
  cases hw : s.indexWidth with
  | byte =>
      constructor
      · right
        simp [narrowIndexes, indexed, hw, Width.truncate]
      · right
        simp [narrowIndexes, indexed, hw, Width.truncate]
  | word =>
      constructor
      · left
        simp [narrowIndexes, indexed, hw, Width.truncate]
      · left
        simp [narrowIndexes, indexed, hw, Width.truncate]

end Registers

/-- Operations that change the width of the index registers do not write to them. -/
theorem Instruction.yields_narrowed (i : Instruction)
    (hi : i.operation ∈ [.sep, .plp, .rti, .xce]) {n : UInt16} {r r' : Registers}
    (h : i.effect.Yields n r r') : r.Narrowed r' := by
  obtain ⟨operation, mode, baseCycles⟩ := i
  simp only [List.mem_cons, List.not_mem_nil, or_false] at hi
  rcases hi with rfl | rfl | rfl | rfl
  · obtain ⟨v, rfl⟩ := h
    have hset := r.narrowIndexes_narrowed (r.status.setBits v)
    exact ⟨hset.x, hset.y⟩
  · obtain ⟨s, v, -, rfl⟩ := h
    have hpull := r.narrowIndexes_narrowed (r.status.pull (lowByte v))
    exact ⟨hpull.x, hpull.y⟩
  · obtain ⟨s, bits, target, rfl⟩ := h
    have hpull := r.narrowIndexes_narrowed (r.status.pull bits)
    cases r.status.emulation with
    | true => exact ⟨hpull.x, hpull.y⟩
    | false => exact ⟨hpull.x, hpull.y⟩
  · obtain rfl := h
    have hswitch := r.narrowIndexes_narrowed
      (({ r.status with carry := r.status.emulation } : Status).switchMode r.status.carry)
    exact ⟨hswitch.x, hswitch.y⟩

/-! ## Steps -/

/-- An instruction changes nothing that its operation is not entitled to change. Operations that
    change the width of the index registers clear high bytes at most, and no instruction changes the
    pins or the places of the vectors. -/
theorem step_changes_entitled {B : Type} [Bus B] {m : Machine B} (h : m.Reachable)
    (hstep : m.core.decide m.irqLine = .instruction) :
    let after := m.step.machine.core
    (∀ p : Part, ¬ p.Kept m.core.toRegisters after.toRegisters →
        m.fetched.MayChange m.core.status.emulation p) ∧
      (m.fetched.operation ∈ [.sep, .plp, .rti, .xce] →
        m.core.toRegisters.Narrowed after.toRegisters) ∧
      after.pins = m.core.pins ∧ after.vectors = m.core.vectors := by
  intro after
  obtain ⟨r, hr, hregisters, hbeside⟩ := Machine.step_instruction hstep
  obtain ⟨waiting, stopped, hsettle⟩ := m.fetched.effect.settle_eq m.core.wake
  rw [hsettle] at hbeside
  refine ⟨?_, ?_, hbeside.pins, hbeside.vectors⟩
  · intro p hchanged
    by_cases hp : m.fetched.MayChange m.core.status.emulation p
    · exact hp
    · have hkept := m.fetched.yields_kept h.sound hr hp
      rw [← hregisters] at hkept
      exact absurd hkept hchanged
  · intro hi
    have hnarrowed := m.fetched.yields_narrowed hi hr
    rw [← hregisters] at hnarrowed
    exact hnarrowed

/-- A machine in native mode that is about to load its flags from the stack. -/
theorem changes_of_plp :
    let m := (Machine.start (Memory.blank.set ⟨0, 0⟩ 0x28) .standard).machine
    let m := (m.perform (.setEmulation false)).machine
    let after := m.step.machine.core
    m.Reachable ∧ m.core.decide m.irqLine = .instruction ∧ m.fetched.operation = .plp ∧
      (∀ p : Part, ¬ p.Kept m.core.toRegisters after.toRegisters →
        m.fetched.MayChange m.core.status.emulation p) ∧
      m.core.toRegisters.Narrowed after.toRegisters := by
  intro m₀ m after
  have hreachable : m.Reachable := (Machine.Reachable.start _ _).perform (.setEmulation false)
  have hstep : m.core.decide m.irqLine = .instruction := rfl
  have hplp : m.fetched.operation = .plp := by decide +kernel
  obtain ⟨hchanges, hnarrowed, -⟩ := step_changes_entitled hreachable hstep
  refine ⟨hreachable, hstep, hplp, hchanges, hnarrowed ?_⟩
  rw [hplp]
  decide

end W65C816
