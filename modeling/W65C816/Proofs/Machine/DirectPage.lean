import W65C816.Machine.Console
import W65C816.Memory
import W65C816.Proofs.Machine.Recasting

/-!
# The direct page register in emulation mode

In emulation mode the direct page is page 0 whatever the direct page register holds, so the register
can be told only by copying it. A program that stays in emulation mode and does not do that behaves
the same whatever the register holds.

* `Recasting.direct` gives the direct page register another value. All functions in the table of
  effects carry it on, except that two operations overwrite it and two copy it.
* `Machine.DirectHidden` says that the next step does not show the register, and
  `Machine.step_sameButDirect` that it does not tell two machines apart then.
* `emulation_hides_direct_page` is the theorem about runs of any length.
-/

namespace W65C816

/-- Gives the direct page register a value. -/
def Recasting.direct (d : UInt16) : Recasting :=
  ⟨id, fun _ => d⟩

/-- The accumulator is not changed, so there is nothing to be seen of it. -/
theorem Recasting.unseen_direct (d : UInt16) (w : Width) : (direct d).Unseen w :=
  ⟨fun _ => rfl, fun _ _ _ => rfl⟩

namespace Instruction

/-- Operations that copy the direct page register to where it can be seen. -/
def ShowsDirect (i : Instruction) : Prop :=
  i.operation ∈ [.phd, .tdc]

/-- Operations that give the direct page register a value. -/
def SetsDirect (i : Instruction) : Prop :=
  i.operation ∈ [.pld, .tcd]

variable {r : Registers} {d : UInt16}

/-- An instruction that neither shows nor sets D carries any change of it on. -/
theorem effect_carries_direct (i : Instruction) (hshows : ¬ i.ShowsDirect)
    (hsets : ¬ i.SetsDirect) : i.effect.Carries (.direct d) (.direct d) r := by
  by_cases hi : i.operation ∈ Operation.wholesale
  -- Of the operations that take a whole register, four have to do with D, and these are excluded.
  · obtain ⟨operation, mode, baseCycles⟩ := i
    simp only [ShowsDirect, SetsDirect, List.mem_cons, List.not_mem_nil, or_false, not_or]
      at hshows hsets
    simp only [Operation.wholesale, List.mem_cons, List.not_mem_nil, or_false] at hi
    rcases hi with rfl | rfl | rfl | rfl | rfl | rfl | rfl | rfl | rfl | rfl | rfl
    · rfl
    · rfl
    · exact absurd rfl hsets.2
    · exact absurd rfl hshows.2
    · rfl
    · rfl
    · rfl
    · exact ⟨rfl, fun _ => rfl⟩
    · exact ⟨rfl, fun _ => rfl⟩
    · exact absurd rfl hshows.1
    · exact absurd rfl hsets.1
  · exact i.effect_carries (Recasting.unseen_direct d _) hi

/-- What is loaded into the register takes the place of whatever was there. -/
theorem effect_overwrites_direct (i : Instruction) (hsets : i.SetsDirect) :
    i.effect.Carries (.direct d) .none r := by
  obtain ⟨operation, mode, baseCycles⟩ := i
  simp only [SetsDirect, List.mem_cons, List.not_mem_nil, or_false] at hsets
  rcases hsets with rfl | rfl
  · exact fun _ _ => rfl
  · rfl

end Instruction

/-! ## Steps -/

namespace Machine

variable {B : Type}

/-- Two machines that differ in the direct page register at most. -/
def SameButDirect (m m' : Machine B) : Prop :=
  ∃ d, m' = m.recast (.direct d)

theorem SameButDirect.refl (m : Machine B) : m.SameButDirect m :=
  ⟨m.core.d, rfl⟩

variable [Bus B] {m m' : Machine B}

/-- The next step cannot show the direct page register: the machine is in emulation mode, and does
    not carry out an operation that copies it. -/
structure DirectHidden (m : Machine B) : Prop where
  emulation : m.core.status.emulation = true
  instruction : m.core.decide m.irqLine = .instruction → ¬ m.fetched.ShowsDirect

/-- Whether the next step gives the direct page register a value. -/
def LoadsDirect (m : Machine B) : Prop :=
  m.core.decide m.irqLine = .instruction ∧ m.fetched.SetsDirect

/-- A step that cannot show the register does the same for any value of it. -/
theorem step_sameButDirect (hhidden : m.DirectHidden) (h : m.SameButDirect m') :
    m.step.machine.SameButDirect m'.step.machine ∧ m'.step.result = m.step.result ∧
      (m.LoadsDirect → m'.step.machine = m.step.machine) := by
  obtain ⟨d, rfl⟩ := h
  by_cases hstep : m.core.decide m.irqLine = .instruction
  · have hpage : m.core.toRegisters.SamePage (.direct d) := .inl hhidden.emulation
    by_cases hsets : m.fetched.SetsDirect
    · obtain ⟨hmachine, hresult⟩ :=
        step_recast hstep hpage (m.fetched.effect_overwrites_direct hsets)
      rw [hmachine]
      exact ⟨.refl _, hresult, fun _ => rfl⟩
    · obtain ⟨hmachine, hresult⟩ := step_recast hstep hpage
        (m.fetched.effect_carries_direct (hhidden.instruction hstep) hsets)
      exact ⟨⟨d, hmachine⟩, hresult, fun hloads => absurd hloads.2 hsets⟩
  · obtain ⟨hmachine, hresult⟩ := step_recast_of_ne (t := .direct d) hstep
    exact ⟨⟨d, hmachine⟩, hresult, fun hloads => absurd hloads.1 hstep⟩

/-- All modes find the same place, and none of them takes longer. -/
theorem effectiveAddress_sameButDirect (hemulation : m.core.status.emulation = true)
    (h : m.SameButDirect m') (mode : Mode) :
    (m'.effectiveAddress mode).result = (m.effectiveAddress mode).result ∧
      m'.core.directPenalty mode.usesDirectPage = m.core.directPenalty mode.usesDirectPage := by
  obtain ⟨d, rfl⟩ := h
  have hpage : m.core.toRegisters.SamePage (.direct d) := .inl hemulation
  have hlocate : Action.Carries (· = m.core) (.direct d) (.direct d)
      (Action.locate mode : Action B Located) (Action.locate mode) :=
    Action.locate_carries mode fun c hc => hc ▸ hpage
  refine ⟨?_, Registers.directPenalty_recast hpage _⟩
  show ((Action.locate mode).run (m.recast (.direct d))).1.address =
    ((Action.locate mode).run m).1.address
  rw [hlocate.run rfl]

/-! ## Runs -/

/-- The machine after a number of steps. -/
def afterSteps (m : Machine B) : Nat → Machine B
  | 0 => m
  | n + 1 => (m.afterSteps n).step.machine

/-- As long as no step shows the register, every step finds two machines that are alike. -/
theorem afterSteps_sameButDirect (h : m.SameButDirect m') {n : Nat}
    (hhidden : ∀ k < n, (m.afterSteps k).DirectHidden) {k : Nat} (hk : k ≤ n) :
    (m.afterSteps k).SameButDirect (m'.afterSteps k) := by
  induction k with
  | zero => exact h
  | succ k ih => exact (step_sameButDirect (hhidden k hk) (ih (Nat.le_of_lt hk))).1

/-- Machines that are the same at some time are the same from then on. -/
theorem afterSteps_eq {k j : Nat} (h : m'.afterSteps k = m.afterSteps k) (hj : k ≤ j) :
    m'.afterSteps j = m.afterSteps j := by
  induction hj with
  | refl => exact h
  | step _ ih => exact congrArg (fun o => o.step.machine) ih

end Machine

/-- Machines that differ in the direct page register go on side by side for as long as the first one
    stays in emulation mode and does not copy the register: after each number of steps they differ
    in it at most, each step takes the same time in both, and no effective address and no penalty
    depends on it. Once the register has been loaded there is no difference at all. -/
theorem emulation_hides_direct_page {B : Type} [Bus B] {m m' : Machine B} (h : m.SameButDirect m')
    {n : Nat} (hhidden : ∀ k < n, (m.afterSteps k).DirectHidden) :
    (∀ k ≤ n, (m.afterSteps k).SameButDirect (m'.afterSteps k)) ∧
      (∀ k < n, (m'.afterSteps k).step.result = (m.afterSteps k).step.result) ∧
      (∀ k < n, (m.afterSteps k).LoadsDirect → ∀ j > k, m'.afterSteps j = m.afterSteps j) ∧
      ∀ k < n, ∀ mode : Mode,
        ((m'.afterSteps k).effectiveAddress mode).result =
            ((m.afterSteps k).effectiveAddress mode).result ∧
          (m'.afterSteps k).core.directPenalty mode.usesDirectPage =
            (m.afterSteps k).core.directPenalty mode.usesDirectPage := by
  have halike : ∀ k ≤ n, (m.afterSteps k).SameButDirect (m'.afterSteps k) :=
    fun k hk => Machine.afterSteps_sameButDirect h hhidden hk
  have hstep : ∀ k (hk : k < n), _ :=
    fun k hk => Machine.step_sameButDirect (hhidden k hk) (halike k (Nat.le_of_lt hk))
  refine ⟨halike, fun k hk => (hstep k hk).2.1, ?_, ?_⟩
  · intro k hk hloads j hj
    exact Machine.afterSteps_eq (k := k + 1) ((hstep k hk).2.2 hloads) hj
  · intro k hk mode
    exact Machine.effectiveAddress_sameButDirect (hhidden k hk).emulation
      (halike k (Nat.le_of_lt hk)) mode

/-- A load and a push that use the direct page, and a transfer that then sets the register. -/
theorem direct_page_hidden_until_loaded :
    let m := (Machine.start (Memory.blank.load 0 [0xB5, 0x10, 0xD4, 0x20, 0x5B]) .standard).machine
    let m' := m.recast (.direct 0x1234)
    (∀ k < 3, (m.afterSteps k).DirectHidden) ∧ m'.core.d ≠ m.core.d ∧
      (m.afterSteps 2).fetched.operation = .tcd ∧
      (m.afterSteps 2).SameButDirect (m'.afterSteps 2) ∧
      (m'.afterSteps 1).step.result = (m.afterSteps 1).step.result ∧
      m'.afterSteps 3 = m.afterSteps 3 := by
  intro m m'
  have hemulation : ∀ k < 3, (m.afterSteps k).core.status.emulation = true := by decide +kernel
  have hshows : ∀ k < 3, (m.afterSteps k).fetched.operation ∉ [.phd, .tdc] := by decide +kernel
  have hhidden : ∀ k < 3, (m.afterSteps k).DirectHidden :=
    fun k hk => ⟨hemulation k hk, fun _ => hshows k hk⟩
  -- The third step is the one that loads D again.
  have htcd : (m.afterSteps 2).fetched.operation = .tcd := by decide +kernel
  have hstep : (m.afterSteps 2).core.decide (m.afterSteps 2).irqLine = .instruction := by
    decide +kernel
  have hloads : (m.afterSteps 2).LoadsDirect := by
    refine ⟨hstep, ?_⟩
    rw [Instruction.SetsDirect, htcd]
    decide
  obtain ⟨halike, hresult, hequal, -⟩ := emulation_hides_direct_page ⟨0x1234, rfl⟩ hhidden
  exact ⟨hhidden, by decide, htcd, halike 2 (by decide), hresult 1 (by decide),
    hequal 2 (by decide) hloads 3 (by decide)⟩

end W65C816
