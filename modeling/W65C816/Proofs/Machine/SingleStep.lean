import W65C816.Proofs.Machine.Budget
import W65C816.Proofs.Machine.Reachable

/-!
# Single steps of a paused machine

While the panel holds a machine, its runs make no steps but the ones that have been requested. There
is one flag for requests, which only a paused run takes back, so requests can get lost among each
other but are never spent twice.

* `Machine.rounds_of_paused` and `Machine.run_of_paused` say all that a paused run does.
* `Machine.Tallied` counts requests and the steps of paused runs over the whole past of a machine.
  What is left over is the flag: `Machine.Tallied.pending_le`.
* `paused_runs_spend_requests` puts this together.
-/

namespace W65C816

namespace Machine

variable {B : Type} [Bus B] {m m' : Machine B} {l : List (Machine B)}

/-! ## Paused runs -/

omit [Bus B] in
theorem ready_of_paused (h : m.core.panel.paused = true) : m.ready = takeRequest m := by
  rw [ready, h]
  rfl

/-- A paused run makes a single step, and that only if one has been requested. -/
theorem rounds_of_paused (hpaused : m.core.panel.paused = true) (last : UInt64) :
    rounds last m =
      if m.core.cycles < last ∧ m.core.panel.stepRequested = true then [takeRequest m] else [] := by
  by_cases hlast : m.core.cycles < last
  · cases hrequested : m.core.panel.stepRequested with
    | false =>
        rw [if_neg (fun h => nomatch h.2)]
        refine rounds_of_held ?_
        rw [hpaused, hrequested]
        rfl
    | true =>
        rw [if_pos ⟨hlast, rfl⟩, ← ready_of_paused hpaused]
        have hfree : ¬ (m.core.panel.paused && !m.core.panel.stepRequested) = true := by
          rw [hrequested, Bool.not_true, Bool.and_false]
          exact nofun
        by_cases hgrown : m.core.cycles < m.ready.step.machine.core.cycles
        · -- The request is spent, so the next round is held.
          rw [rounds_of_grown hlast hfree hgrown]
          refine congrArg (List.cons m.ready) (rounds_of_held ?_)
          rw [ready_of_paused hpaused, paused_step, stepRequested_step]
          exact (Bool.and_true _).trans hpaused
        · exact rounds_of_stuck hlast hfree hgrown
  · rw [if_neg (fun h => hlast h.1)]
    exact rounds_of_spent hlast

/-- The result of a step is what it adds to the count, as that of a run is. -/
theorem step_eq (m : Machine B) :
    m.step = ⟨m.step.machine.core.cycles - m.core.cycles, m.step.machine, m.step.events⟩ := by
  have hspent : m.step.machine.core.cycles - m.core.cycles = m.step.result := by
    rw [step_spends, UInt64.add_comm, UInt64.add_sub_cancel]
  rw [hspent]

theorem run_eq (m : Machine B) (budget : UInt64) :
    m.run budget = ⟨(m.run budget).machine.core.cycles - m.core.cycles, (m.run budget).machine,
      (m.run budget).events⟩ := rfl

/-- A paused run is the step that has been requested, or nothing. -/
theorem run_of_paused (hpaused : m.core.panel.paused = true) (budget : UInt64) :
    m.run budget =
      if m.core.cycles < target m.core.cycles budget ∧ m.core.panel.stepRequested = true then
        (takeRequest m).step
      else
        ⟨0, m, []⟩ := by
  have hrounds := runTo_rounds (target m.core.cycles budget) m []
  have hevents := run_events m budget
  rw [← machine_run, rounds_of_paused hpaused] at hrounds
  rw [rounds_of_paused hpaused] at hevents
  rw [run_eq, hevents]
  split
  · rename_i h
    rw [if_pos h] at hrounds
    have honce : m.Rounds [takeRequest m] (takeRequest m).step.machine := by
      rw [← ready_of_paused hpaused]
      exact .round (.done _)
    rw [hrounds.unique honce, List.flatMap_singleton]
    exact (step_eq (takeRequest m)).symm
  · rename_i h
    rw [if_neg h] at hrounds
    rw [hrounds.unique (.done m), UInt64.sub_self]
    rfl

/-- A run that is not paused leaves the request alone, from its first step to its last. -/
theorem Rounds.keeps_request (h : m.Rounds l m') (hfree : m.core.panel.paused = false) :
    m'.core.panel.stepRequested = m.core.panel.stepRequested ∧
      ∀ x ∈ l, x.core.panel.stepRequested = m.core.panel.stepRequested := by
  induction h with
  | done m => exact ⟨rfl, fun x hx => absurd hx List.not_mem_nil⟩
  | @round m m' l _ ih =>
      rw [ready_of_free hfree] at ih ⊢
      obtain ⟨hlast, hall⟩ := ih (m.paused_step.trans hfree)
      rw [stepRequested_step] at hlast hall
      refine ⟨hlast, fun x hx => ?_⟩
      rcases List.mem_cons.mp hx with rfl | hx
      · rfl
      · exact hall x hx

/-! ## Counting requests -/

omit [Bus B] in
/-- How many steps a machine still owes: none or one, however often a step has been requested. -/
def pending (m : Machine B) : Nat :=
  m.core.panel.stepRequested.toNat

/-- How many steps a command makes in a paused run. -/
def pausedSteps (m : Machine B) : Command → Nat
  | .run budget =>
      if m.core.panel.paused then (rounds (target m.core.cycles budget) m).length else 0
  | _ => 0

/-- How many steps a command requests. -/
def requestsOf : Command → Nat
  | .requestStep => 1
  | _ => 0

/-- A machine that comes from a start, with the number of requests since then and the number of
    steps that paused runs have made. -/
inductive Tallied : Machine B → Nat → Nat → Prop where
  | start (bus : B) (configuration : Configuration) :
      Tallied (start bus configuration).machine 0 0
  | perform {m : Machine B} {requests steps : Nat} (h : Tallied m requests steps)
      (command : Command) :
      Tallied (m.perform command).machine (requests + requestsOf command)
        (steps + m.pausedSteps command)
  | alterBus {m : Machine B} {requests steps : Nat} (h : Tallied m requests steps) (bus : B) :
      Tallied { m with bus } requests steps

/-- Every reachable machine has a tally. -/
theorem Reachable.tallied (h : m.Reachable) : ∃ requests steps, m.Tallied requests steps := by
  induction h with
  | start bus configuration => exact ⟨_, _, .start bus configuration⟩
  | perform _ command ih =>
      obtain ⟨requests, steps, htallied⟩ := ih
      exact ⟨_, _, htallied.perform command⟩
  | alterBus _ bus ih =>
      obtain ⟨requests, steps, htallied⟩ := ih
      exact ⟨_, _, htallied.alterBus bus⟩

/-- Whatever a paused run does is paid for by the request that it takes back. -/
theorem pending_run (m : Machine B) (budget : UInt64) :
    m.pausedSteps (.run budget) + (m.run budget).machine.pending ≤ m.pending := by
  cases hpaused : m.core.panel.paused with
  | false =>
      have hkept := (runTo_rounds (target m.core.cycles budget) m []).keeps_request hpaused
      rw [pausedSteps, hpaused, pending, machine_run, hkept.1]
      exact Nat.le_of_eq (Nat.zero_add _)
  | true =>
      rw [pausedSteps, if_pos hpaused, run_of_paused hpaused, rounds_of_paused hpaused]
      split
      · rename_i h
        rw [pending, stepRequested_step, pending, h.2]
        exact Nat.le_refl 1
      · exact Nat.le_of_eq (Nat.zero_add _)

/-- No command but a request makes a machine owe a step. -/
theorem pending_perform (m : Machine B) (command : Command) :
    m.pausedSteps command + (m.perform command).machine.pending ≤
      m.pending + requestsOf command := by
  cases command with
  | run budget => exact m.pending_run budget
  | step =>
      refine Nat.le_of_eq ((Nat.zero_add _).trans ?_)
      exact congrArg Bool.toNat m.stepRequested_step
  | requestStep => exact Nat.le_add_left 1 m.pending
  | setPin pin level =>
      refine Nat.le_of_eq ((Nat.zero_add _).trans ?_)
      cases pin with
      | ready | irq | nmi | abort => rfl
      | reset =>
          simp only [perform, setPin]
          split
          · rfl
          · rfl
  | reset | jump _ | setEmulation _ | setStatus _ | setA _ | setX _ | setY _ | setD _
  | setStackPointer _ | setDataBank _ | setProgramBank _ | setProgramCounter _ | setTrace _ | pause
  | resume | storeByte _ _ | storeWord _ _ | storeLong _ _ =>
      exact Nat.le_of_eq (Nat.zero_add _)

/-- The steps that have been made while paused, and the one that is still owed, have all been
    requested. -/
theorem Tallied.pending_le {requests steps : Nat} (h : m.Tallied requests steps) :
    steps + m.pending ≤ requests := by
  induction h with
  | start bus configuration => exact Nat.le_refl 0
  | @perform m requests steps _ command ih =>
      have hcommand := m.pending_perform command
      omega
  | alterBus _ bus ih => exact ih

end Machine

/-- What runs do with requested steps, on any bus and after any commands, as long as the count does
    not come near its largest value.

    * A paused run with a budget is the step that has been requested, if there is one, and takes the
      request back whatever the step does. It is nothing at all if there is none, or no budget.
    * A run that is not paused never takes a request back.
    * So no more steps have ever been made in paused runs than have been requested. -/
theorem paused_runs_spend_requests {B : Type} [Bus B] {m : Machine B} {requests steps : Nat}
    (h : m.Tallied requests steps) (budget : UInt64)
    (hroom : m.core.cycles.toNat + budget.toNat + Machine.longestStep < UInt64.size) :
    let made := Machine.rounds (m.core.cycles + budget) m
    let after := (m.run budget).machine
    m.RunsTo (m.core.cycles + budget) made after ∧
      (m.core.panel.paused = true →
        (0 < budget ∧ m.core.panel.stepRequested = true →
          made = [m.takeRequest] ∧ m.run budget = m.takeRequest.step ∧
            after.core.panel.stepRequested = false) ∧
        (¬ (0 < budget ∧ m.core.panel.stepRequested = true) →
          made = [] ∧ m.run budget = ⟨0, m, []⟩)) ∧
      (m.core.panel.paused = false →
        after.core.panel.stepRequested = m.core.panel.stepRequested ∧
          ∀ x ∈ made, x.core.panel.stepRequested = m.core.panel.stepRequested) ∧
      steps ≤ requests := by
  intro made after
  have hsum := Machine.toNat_add_of_room (x := m.core.cycles) (y := budget) (by omega)
  have htarget : Machine.target m.core.cycles budget = m.core.cycles + budget :=
    Machine.target_of_room (by omega)
  have hruns : m.RunsTo (m.core.cycles + budget) made after := Machine.run_runsTo m budget hroom
  -- No matter how the run ends, its rounds follow each other from the machine as it was.
  have hrounds : m.Rounds made after := by
    have hall := Machine.runTo_rounds (Machine.target m.core.cycles budget) m []
    rw [← Machine.machine_run, htarget] at hall
    exact hall
  have hpositive : m.core.cycles < m.core.cycles + budget ↔ 0 < budget := by
    rw [UInt64.lt_iff_toNat_lt, UInt64.lt_iff_toNat_lt, hsum, UInt64.toNat_zero]
    omega
  have hpending := h.pending_le
  refine ⟨hruns, fun hpaused => ?_, hrounds.keeps_request, by omega⟩
  have hmade := Machine.rounds_of_paused hpaused (m.core.cycles + budget)
  have hrun := Machine.run_of_paused hpaused budget
  rw [htarget] at hrun
  constructor
  -- With a request the run makes one round, after which the request is gone.
  · rintro ⟨hbudget, hrequested⟩
    rw [if_pos ⟨hpositive.mpr hbudget, hrequested⟩] at hmade hrun
    refine ⟨hmade, hrun, ?_⟩
    simp only [after]
    rw [hrun, Machine.stepRequested_step]
    rfl
  · intro hheld
    rw [if_neg (mt (And.imp_left hpositive.mp) hheld)] at hmade hrun
    exact ⟨hmade, hrun⟩

/-- Two requests for a paused machine are one step, whatever the budget. -/
theorem requests_coalesce :
    let m := (Machine.start Memory.blank .standard).machine
    let m := (m.perform .pause).machine
    let m := ((m.perform .requestStep).machine.perform .requestStep).machine
    m.Tallied 2 0 ∧ m.run 1000 = m.takeRequest.step ∧
      (m.run 1000).machine.core.panel.stepRequested = false := by
  intro m₀ m₁ m
  have htallied : m.Tallied 2 0 :=
    (((Machine.Tallied.start _ _).perform .pause).perform .requestStep).perform .requestStep
  obtain ⟨-, hpaused, -, -⟩ := paused_runs_spend_requests htallied 1000 (by decide)
  obtain ⟨-, hrun, htaken⟩ := (hpaused rfl).1 ⟨by decide, rfl⟩
  exact ⟨htallied, hrun, htaken⟩

end W65C816
