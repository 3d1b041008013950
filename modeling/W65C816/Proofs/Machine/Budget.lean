import W65C816.Proofs.Machine.Cycles
import W65C816.Proofs.Machine.Inversion
import W65C816.Proofs.Machine.Rounds

/-!
# Runs and their budgets

A run goes on until its budget is spent or a step gives no cycles. `Machine.RunsTo` is that loop as
a relation, told by the results of the steps: a machine stands in it just when the loop comes to an
end. The count must have room for one step beyond the last one that a run may begin.

* `Machine.runTo_runsTo` says that every run is such a loop, and goes through its rounds.
* `RunsTo.spends` adds up the results, and `RunsTo.ends` says why a run has left off.
* `RunsTo.resume` is the reason why slicing does not matter: a longer run of the same machine comes
  by where a shorter one has ended.
* `run_spends_budget` puts this together.
-/

namespace W65C816

namespace Machine

variable {B : Type} [Bus B] {m m' : Machine B} {last : UInt64} {l : List (Machine B)}

/-! ## The loop of a run -/

/-- The loop of a run up to the count `last`, with the machines from which it makes its steps. It
    leaves off when the count is reached, when the panel holds it, and after a step that has given
    no cycles. -/
inductive RunsTo (last : UInt64) : Machine B → List (Machine B) → Machine B → Prop where
  | spent {m : Machine B} (hlast : ¬ m.core.cycles < last) : RunsTo last m [] m
  | held {m : Machine B} (hlast : m.core.cycles < last)
      (hheld : (m.core.panel.paused && !m.core.panel.stepRequested) = true) : RunsTo last m [] m
  | stuck {m : Machine B} (hlast : m.core.cycles < last)
      (hfree : ¬ (m.core.panel.paused && !m.core.panel.stepRequested) = true)
      (hstuck : m.ready.step.result = 0) : RunsTo last m [m.ready] m.ready.step.machine
  | moving {m m' : Machine B} {l : List (Machine B)} (hlast : m.core.cycles < last)
      (hfree : ¬ (m.core.panel.paused && !m.core.panel.stepRequested) = true)
      (hmoving : m.ready.step.result ≠ 0) (h : RunsTo last m.ready.step.machine l m') :
      RunsTo last m (m.ready :: l) m'

/-- The cycles that the steps from some machines take together. -/
def cyclesOf : List (Machine B) → Nat
  | [] => 0
  | m :: l => m.step.result.toNat + cyclesOf l

omit [Bus B] in
theorem cycles_ready (m : Machine B) : m.ready.core.cycles = m.core.cycles := by
  rw [ready]
  cases m.core.panel.paused with
  | true => rfl
  | false => rfl

omit [Bus B] in
theorem ready_of_free (h : m.core.panel.paused = false) : m.ready = m := by
  rw [ready, h]
  rfl

/-- The panel is in the hands of others: a step only shows the count there. -/
theorem panel_step (m : Machine B) :
    m.step.machine.core.panel.paused = m.core.panel.paused ∧
      m.step.machine.core.panel.stepRequested = m.core.panel.stepRequested := by
  cases h : m.core.decide m.irqLine with
  | idle =>
      rw [step_idle h]
      exact ⟨rfl, rfl⟩
  | interrupt source =>
      obtain ⟨s, pc, -, hbeside⟩ := step_interrupt h
      rw [hbeside.paused, hbeside.stepRequested]
      cases source with
      | abort | nmi | irq | brk | cop => exact ⟨rfl, rfl⟩
  | instruction =>
      obtain ⟨r, -, -, hbeside⟩ := step_instruction h
      obtain ⟨waiting, stopped, hsettle⟩ := m.fetched.effect.settle_eq m.core.wake
      rw [hbeside.paused, hbeside.stepRequested, hsettle]
      exact ⟨rfl, rfl⟩

/-- A step does not pause a run. -/
theorem paused_step (m : Machine B) :
    m.step.machine.core.panel.paused = m.core.panel.paused :=
  m.panel_step.1

/-- A step does not request another one. -/
theorem stepRequested_step (m : Machine B) :
    m.step.machine.core.panel.stepRequested = m.core.panel.stepRequested :=
  m.panel_step.2

/-! ## Counts with room -/

/-- Nothing that a run up to `last` steps from can take the count beyond its range. -/
theorem toNat_cycles_ready_step (hroom : last.toNat + longestStep < UInt64.size)
    (hlast : m.core.cycles < last) :
    m.ready.step.machine.core.cycles.toNat =
      m.core.cycles.toNat + m.ready.step.result.toNat := by
  have hlt := UInt64.lt_iff_toNat_lt.mp hlast
  have hready := congrArg UInt64.toNat m.cycles_ready
  rw [toNat_cycles_step (by omega), hready]

/-- With room, the count grows exactly when a step gives cycles. -/
theorem grows_iff (hroom : last.toNat + longestStep < UInt64.size) (hlast : m.core.cycles < last) :
    m.core.cycles < m.ready.step.machine.core.cycles ↔ m.ready.step.result ≠ 0 := by
  rw [UInt64.lt_iff_toNat_lt, toNat_cycles_ready_step hroom hlast, ne_eq, ← UInt64.toNat_inj]
  have hzero : (0 : UInt64).toNat = 0 := rfl
  omega

/-- Every run comes to its end by the loop. -/
theorem runTo_runsTo (hroom : last.toNat + longestStep < UInt64.size) (m : Machine B)
    (events : List Event) : RunsTo last m (rounds last m) (runTo last m events).1 := by
  fun_induction runTo last m events with
  | case1 m events hlast hheld =>
      rw [rounds_of_held hheld]
      exact .held hlast hheld
  | case2 m events hlast hfree start o events' hgrown ih =>
      have hstep : o = m.ready.step := by rw [ready]; rfl
      rw [hstep] at hgrown ih ⊢
      rw [rounds_of_grown hlast hfree hgrown]
      exact .moving hlast hfree ((grows_iff hroom hlast).mp hgrown) ih
  | case3 m events hlast hfree start o events' hstuck =>
      have hstep : o = m.ready.step := by rw [ready]; rfl
      rw [hstep] at hstuck ⊢
      rw [rounds_of_stuck hlast hfree hstuck]
      refine .stuck hlast hfree (Decidable.byContradiction fun hmoving => ?_)
      exact hstuck ((grows_iff hroom hlast).mpr hmoving)
  | case4 m events hlast =>
      rw [rounds_of_spent hlast]
      exact .spent hlast

/-! ## What a run spends -/

namespace RunsTo

/-- The results of the steps add up to the growth of the count. -/
theorem spends (h : RunsTo last m l m') (hroom : last.toNat + longestStep < UInt64.size) :
    m'.core.cycles.toNat = m.core.cycles.toNat + cyclesOf l := by
  induction h with
  | spent _ => rfl
  | held _ _ => rfl
  | @stuck m hlast _ _ =>
      rw [toNat_cycles_ready_step hroom hlast]
      rfl
  | @moving m m' l hlast _ _ _ ih =>
      rw [ih, toNat_cycles_ready_step hroom hlast, cyclesOf, Nat.add_assoc]

/-- Every step begins before the count is reached. -/
theorem begins (h : RunsTo last m l m') : ∀ x ∈ l, x.core.cycles < last := by
  induction h with
  | spent _ => exact fun x hx => absurd hx List.not_mem_nil
  | held _ _ => exact fun x hx => absurd hx List.not_mem_nil
  | @stuck m hlast _ _ =>
      intro x hx
      rw [List.mem_singleton.mp hx, cycles_ready]
      exact hlast
  | @moving m m' l hlast _ _ _ ih =>
      intro x hx
      rcases List.mem_cons.mp hx with rfl | hx
      · rw [cycles_ready]
        exact hlast
      · exact ih x hx

/-- All steps but the last one take two cycles, so there are not many. -/
theorem length_le (h : RunsTo last m l m') (hroom : last.toNat + longestStep < UInt64.size) :
    l = [] ∨ m.core.cycles.toNat + 2 * l.length ≤ last.toNat + 1 := by
  induction h with
  | spent _ => exact .inl rfl
  | held _ _ => exact .inl rfl
  | stuck hlast _ _ =>
      have hlt := UInt64.lt_iff_toNat_lt.mp hlast
      exact .inr (by simp only [List.length_singleton]; omega)
  | @moving m m' l hlast _ hmoving _ ih =>
      have hlt := UInt64.lt_iff_toNat_lt.mp hlast
      have htwo := two_le_step hmoving
      have hstep := toNat_cycles_ready_step hroom hlast
      refine .inr ?_
      rw [List.length_cons]
      rcases ih with rfl | hlength
      · rw [List.length_nil]
        omega
      · omega

/-- A run that nobody pauses leaves off when the count is reached or the core rests. -/
theorem ends (h : RunsTo last m l m') (hfree : m.core.panel.paused = false) :
    ¬ m'.core.cycles < last ∨ m'.step.result = 0 := by
  induction h with
  | spent hlast => exact .inl hlast
  | held _ hheld =>
      rw [hfree] at hheld
      exact absurd hheld nofun
  | @stuck m _ _ hstuck =>
      have hidle := m.ready.result_step_eq_zero_iff.mp hstuck
      rw [step_idle hidle]
      exact .inr hstuck
  | @moving m m' l _ _ _ _ ih =>
      refine ih ?_
      rw [paused_step, ready_of_free hfree]
      exact hfree

/-- A run goes beyond its count by less than it takes to make another step. -/
theorem overshoot (h : RunsTo last m l m') (hroom : last.toNat + longestStep < UInt64.size)
    (hstart : m.core.cycles.toNat ≤ last.toNat + longestStep) :
    m'.core.cycles.toNat ≤ last.toNat + longestStep := by
  have hstep : ∀ m : Machine B, m.core.cycles < last →
      m.ready.step.machine.core.cycles.toNat ≤ last.toNat + longestStep := by
    intro m hlast
    have hlt := UInt64.lt_iff_toNat_lt.mp hlast
    have hlongest := m.ready.step_le_longestStep
    rw [toNat_cycles_ready_step hroom hlast]
    omega
  induction h with
  | spent _ => exact hstart
  | held _ _ => exact hstart
  | stuck hlast _ _ => exact hstep _ hlast
  | moving hlast _ _ _ ih => exact ih (hstep _ hlast)

end RunsTo

/-! ## Slices of runs -/

section Slices

variable {next : UInt64}

/-- A run, with the panel's part in one place. -/
theorem runTo_eq_ready (last : UInt64) (m : Machine B) (events : List Event) :
    runTo last m events =
      if m.core.cycles < last then
        if m.core.panel.paused && !m.core.panel.stepRequested then (m, events)
        else
          let o := m.ready.step
          if m.core.cycles < o.machine.core.cycles then
            runTo last o.machine (o.events.reverse ++ events)
          else (o.machine, o.events.reverse ++ events)
      else (m, events) := by
  rw [runTo, ready]

/-- A run begins with a step. -/
theorem runTo_of_moving (hfree : m.core.panel.paused = false) (hnext : m.core.cycles < next)
    (hgrown : m.core.cycles < m.step.machine.core.cycles) (events : List Event) :
    runTo next m events = runTo next m.step.machine (m.step.events.reverse ++ events) := by
  have hheld : ¬ (m.core.panel.paused && !m.core.panel.stepRequested) = true := by
    rw [hfree]
    exact nofun
  rw [runTo_eq_ready, ready_of_free hfree, if_pos hnext, if_neg hheld]
  exact if_pos hgrown

/-- Where one run has ended, a longer one goes on. -/
theorem RunsTo.resume (h : RunsTo last m l m') (hroom : last.toNat + longestStep < UInt64.size)
    (hfree : m.core.panel.paused = false) (hnext : m'.core.cycles ≤ next) (events : List Event) :
    runTo next m events =
      runTo next m' ((l.flatMap fun x => x.step.events).reverse ++ events) := by
  induction h generalizing events with
  | spent _ => rfl
  | held _ _ => rfl
  | @stuck m _ _ hstuck =>
      rw [ready_of_free hfree] at hstuck ⊢
      have hidle := step_idle (m.result_step_eq_zero_iff.mp hstuck)
      rw [List.flatMap_singleton]
      rw [hidle]
      rfl
  | @moving m m' l hlast hheld hmoving h ih =>
      have hgrown := (grows_iff hroom hlast).mpr hmoving
      have hspent := h.spends hroom
      rw [ready_of_free hfree] at *
      have hbefore : m.core.cycles < next := by
        rw [UInt64.lt_iff_toNat_lt] at hgrown ⊢
        rw [UInt64.le_iff_toNat_le] at hnext
        omega
      rw [runTo_of_moving hfree hbefore hgrown]
      rw [ih (by rw [paused_step]; exact hfree) hnext]
      rw [List.flatMap_cons, List.reverse_append, List.append_assoc]

/-- The rounds that a machine goes through say where it gets to. -/
theorem Rounds.unique {m₁ m₂ : Machine B} (h₁ : m.Rounds l m₁) (h₂ : m.Rounds l m₂) : m₁ = m₂ := by
  induction h₁ with
  | done m =>
      cases h₂ with
      | done => rfl
  | round h ih =>
      cases h₂ with
      | round h' => exact ih h'

/-- The events so far do not matter to where a run goes. -/
theorem machine_runTo (m : Machine B) (events : List Event) :
    (runTo last m events).1 = (runTo last m []).1 :=
  (runTo_rounds last m events).unique (runTo_rounds last m [])

end Slices

/-! ## Budgets -/

theorem target_of_room {start budget : UInt64} (h : start.toNat + budget.toNat < UInt64.size) :
    target start budget = start + budget :=
  if_pos h

/-- With room below the end of the count, sums do not wrap. -/
theorem toNat_add_of_room {x y : UInt64} (h : x.toNat + y.toNat < UInt64.size) :
    (x + y).toNat = x.toNat + y.toNat := by
  rw [UInt64.toNat_add]
  exact Nat.mod_eq_of_lt h

/-- Where a run with a budget goes. -/
theorem machine_run (m : Machine B) (budget : UInt64) :
    (m.run budget).machine = (runTo (target m.core.cycles budget) m []).1 := rfl

/-- With room, a run goes to the sum of the count and the budget. -/
theorem run_runsTo (m : Machine B) (budget : UInt64)
    (hroom : m.core.cycles.toNat + budget.toNat + longestStep < UInt64.size) :
    RunsTo (m.core.cycles + budget) m (rounds (m.core.cycles + budget) m)
      (m.run budget).machine := by
  have htarget : m.core.cycles.toNat + budget.toNat < UInt64.size := by omega
  rw [machine_run, target_of_room htarget]
  exact runTo_runsTo (by rw [toNat_add_of_room htarget]; exact hroom) m []

/-- The result of a run is what the count has grown by, and at most a step over the budget. -/
theorem run_result (m : Machine B) (budget : UInt64)
    (hroom : m.core.cycles.toNat + budget.toNat + longestStep < UInt64.size) :
    (m.run budget).machine.core.cycles.toNat =
        m.core.cycles.toNat + (m.run budget).result.toNat ∧
      (m.run budget).result.toNat = cyclesOf (rounds (m.core.cycles + budget) m) ∧
      (m.run budget).result.toNat ≤ budget.toNat + longestStep := by
  have hlast := toNat_add_of_room (show m.core.cycles.toNat + budget.toNat < _ by omega)
  have hruns := run_runsTo m budget hroom
  have hspends := hruns.spends (by rw [hlast]; exact hroom)
  have hover := hruns.overshoot (by rw [hlast]; exact hroom) (by omega)
  have hresult : (m.run budget).result = (m.run budget).machine.core.cycles - m.core.cycles := rfl
  have hle : m.core.cycles ≤ (m.run budget).machine.core.cycles := by
    rw [UInt64.le_iff_toNat_le]
    omega
  have hnat := UInt64.toNat_sub_of_le _ _ hle
  rw [← hresult] at hnat
  omega

/-- A run that goes on from where another one has ended, and both as one run. -/
theorem run_resume {a b : UInt64} {first second whole : Outcome B UInt64}
    (hfree : m.core.panel.paused = false)
    (hroom : m.core.cycles.toNat + a.toNat + b.toNat + 2 * longestStep < UInt64.size)
    (hfirst : m.run a = first) (hsecond : first.machine.run b = second)
    (hwhole : m.run (first.result + b) = whole) :
    second.machine = whole.machine ∧ first.result.toNat + second.result.toNat = whole.result.toNat ∧
      whole.events = first.events ++ second.events := by
  obtain ⟨hcount, -, hmost⟩ := run_result m a (by omega)
  have hruns := run_runsTo m a (by omega)
  have hlast := toNat_add_of_room (show m.core.cycles.toNat + a.toNat < UInt64.size by omega)
  rw [hfirst] at hcount hmost hruns
  have hsum : (first.result + b).toNat = first.result.toNat + b.toNat :=
    toNat_add_of_room (by omega)
  obtain ⟨hcount', -, -⟩ := run_result first.machine b (by omega)
  obtain ⟨hcounts, -, -⟩ := run_result m (first.result + b) (by omega)
  rw [hsecond] at hcount'
  rw [hwhole] at hcounts
  -- Both ways lead to the same count, and the first run is on the way to it.
  have hcycles : first.machine.core.cycles = m.core.cycles + first.result :=
    UInt64.toNat_inj.mp (by rw [toNat_add_of_room (by omega)]; exact hcount)
  have htarget : target m.core.cycles (first.result + b) = target first.machine.core.cycles b := by
    rw [target_of_room (by omega), target_of_room (by omega), hcycles, UInt64.add_assoc]
  have hnext : first.machine.core.cycles ≤ target first.machine.core.cycles b := by
    rw [target_of_room (by omega), UInt64.le_iff_toNat_le, toNat_add_of_room (by omega)]
    omega
  have hresume := hruns.resume (by omega) hfree hnext []
  have hmachine : second.machine = whole.machine := by
    rw [← hwhole, ← hsecond, machine_run m, htarget, hresume, machine_runTo]
    rfl
  refine ⟨hmachine, ?_, ?_⟩
  · rw [hmachine] at hcount'
    omega
  · have hevents : first.events =
        (rounds (m.core.cycles + a) m).flatMap fun x => x.step.events := by
      rw [← hfirst, run_events, target_of_room (by omega)]
    have hall : (m.run (first.result + b)).events =
        (runTo (target m.core.cycles (first.result + b)) m []).2.reverse := rfl
    rw [← hwhole, hall, htarget, hresume, runTo_events, hevents, ← hsecond, run_events]
    simp only [List.append_nil, List.reverse_append, List.reverse_reverse]

end Machine

/-- What a run with a budget `a` spends, on any bus, as long as nobody pauses it and the count does
    not come near its largest value.

    * The loop of the run comes to its end. It has made at most half as many steps as there are
      cycles in the budget, rounded up, and the result is the sum of their results.
    * Each step begins with less than the budget spent. With no budget there is none.
    * A run that has not spent its budget leaves a core behind that rests.
    * A run that goes on with a budget `b` comes to where one run with both would have come, by the
      same cycles and events. -/
theorem run_spends_budget {B : Type} [Bus B] {m : Machine B} (hfree : m.core.panel.paused = false)
    (a b : UInt64)
    (hroom : m.core.cycles.toNat + a.toNat + b.toNat + 2 * Machine.longestStep < UInt64.size) :
    let steps := Machine.rounds (m.core.cycles + a) m
    let first := m.run a
    let second := first.machine.run b
    let whole := m.run (first.result + b)
    m.RunsTo (m.core.cycles + a) steps first.machine ∧ 2 * steps.length ≤ a.toNat + 1 ∧
      first.machine.core.cycles.toNat = m.core.cycles.toNat + first.result.toNat ∧
      first.result.toNat = Machine.cyclesOf steps ∧
      (∀ x ∈ steps, x.core.cycles.toNat < m.core.cycles.toNat + a.toNat) ∧
      (a = 0 → steps = []) ∧
      (a ≤ first.result ∨ (first.result < a ∧ first.machine.step.result = 0)) ∧
      second.machine = whole.machine ∧
      first.result.toNat + second.result.toNat = whole.result.toNat ∧
      whole.events = first.events ++ second.events := by
  intro steps first second whole
  have hsum := Machine.toNat_add_of_room (x := m.core.cycles) (y := a) (by omega)
  have hruns : m.RunsTo (m.core.cycles + a) steps first.machine :=
    Machine.run_runsTo m a (by omega)
  have hcount : first.machine.core.cycles.toNat =
      m.core.cycles.toNat + first.result.toNat := (Machine.run_result m a (by omega)).1
  have hresult := (Machine.run_result m a (by omega)).2.1
  have hbegins : ∀ x ∈ steps, x.core.cycles.toNat < m.core.cycles.toNat + a.toNat := by
    intro x hx
    rw [← hsum]
    exact UInt64.lt_iff_toNat_lt.mp (hruns.begins x hx)
  refine ⟨hruns, ?_, hcount, hresult, hbegins, ?_, ?_, Machine.run_resume hfree hroom rfl rfl rfl⟩
  -- A round takes two cycles at least, so a budget has no more rounds than that allows.
  · rcases hruns.length_le (by omega) with hnone | hlength
    · rw [hnone]
      exact Nat.zero_le _
    · omega
  · rintro rfl
    exact Machine.rounds_of_spent (by rw [UInt64.add_zero]; exact UInt64.lt_irrefl _)
  · rw [UInt64.le_iff_toNat_le, UInt64.lt_iff_toNat_lt]
    have hends := hruns.ends hfree
    rw [UInt64.lt_iff_toNat_lt, hsum] at hends
    rcases hends with hspent | hrests
    · exact .inl (by omega)
    -- A run that ends before its budget is spent ends with a round that does not get on.
    · rcases Nat.lt_or_ge first.result.toNat a.toNat with hlt | hle
      · exact .inr ⟨hlt, hrests⟩
      · exact .inl hle

/-- A machine whose memory holds nothing but breaks, which runs for ten cycles and then for five. -/
theorem breaks_spend_budget :
    let m := (Machine.start Memory.blank .standard).machine
    let whole := m.run ((m.run 10).result + 5)
    m.core.panel.paused = false ∧ ((m.run 10).machine.run 5).machine = whole.machine ∧
      whole.events = (m.run 10).events ++ ((m.run 10).machine.run 5).events := by
  intro m whole
  have hfree : m.core.panel.paused = false := rfl
  obtain ⟨-, -, -, -, -, -, -, hmachine, -, hevents⟩ :=
    run_spends_budget (m := m) hfree 10 5 (by decide)
  exact ⟨hfree, hmachine, hevents⟩

end W65C816
