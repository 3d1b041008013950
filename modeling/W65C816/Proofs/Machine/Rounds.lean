import W65C816.Machine.Run

/-!
# The rounds of a run

A run is a sequence of steps with the panel in charge between them. `Machine.Rounds` is that
sequence as a relation, without the count that ends it, so that what one step preserves is carried
through a run by an induction over its rounds. `Machine.runTo_rounds` says that every run has them,
and `Machine.run_events` that it has nothing to tell but what they tell.
-/

namespace W65C816

namespace Machine

variable {B : Type}

/-- The machine as a run makes its next step: a paused one spends the request for it. -/
def ready (m : Machine B) : Machine B :=
  if m.core.panel.paused then takeRequest m else m

theorem toRegisters_ready (m : Machine B) : m.ready.core.toRegisters = m.core.toRegisters := by
  rw [ready]
  cases m.core.panel.paused with
  | true => rfl
  | false => rfl

variable [Bus B]

/-- The machines from which a run up to a count makes its steps, the first one first. -/
def rounds (last : UInt64) (m : Machine B) : List (Machine B) :=
  if m.core.cycles < last then
    if m.core.panel.paused && !m.core.panel.stepRequested then
      []
    else
      if m.core.cycles < m.ready.step.machine.core.cycles then
        m.ready :: rounds last m.ready.step.machine
      else
        [m.ready]
  else
    []
termination_by last.toNat - m.core.cycles.toNat
decreasing_by
  rename_i hlast _ hgrown
  exact Nat.sub_lt_sub_left (UInt64.lt_iff_toNat_lt.mp hlast) (UInt64.lt_iff_toNat_lt.mp hgrown)

section Cases

variable {last : UInt64} {m : Machine B}

theorem rounds_of_spent (hlast : ¬ m.core.cycles < last) : rounds last m = [] := by
  rw [rounds, if_neg hlast]

/-- A paused machine that has not been asked to step makes none. -/
theorem rounds_of_held (hheld : (m.core.panel.paused && !m.core.panel.stepRequested) = true) :
    rounds last m = [] := by
  rw [rounds, if_pos hheld, ite_self]

/-- A round that gets on is followed by those of the rest. -/
theorem rounds_of_grown (hlast : m.core.cycles < last)
    (hfree : ¬ (m.core.panel.paused && !m.core.panel.stepRequested) = true)
    (hgrown : m.core.cycles < m.ready.step.machine.core.cycles) :
    rounds last m = m.ready :: rounds last m.ready.step.machine := by
  rw [rounds, if_pos hlast, if_neg hfree, if_pos hgrown]

theorem rounds_of_stuck (hlast : m.core.cycles < last)
    (hfree : ¬ (m.core.panel.paused && !m.core.panel.stepRequested) = true)
    (hstuck : ¬ m.core.cycles < m.ready.step.machine.core.cycles) :
    rounds last m = [m.ready] := by
  rw [rounds, if_pos hlast, if_neg hfree, if_neg hstuck]

end Cases

/-- Steps made one after the other, each from a machine that the panel has made ready. -/
inductive Rounds : Machine B → List (Machine B) → Machine B → Prop where
  | done (m : Machine B) : Rounds m [] m
  | round {m m' : Machine B} {l : List (Machine B)} (h : Rounds m.ready.step.machine l m') :
      Rounds m (m.ready :: l) m'

/-- A run goes through its rounds. -/
theorem runTo_rounds (last : UInt64) (m : Machine B) (events : List Event) :
    Rounds m (rounds last m) (runTo last m events).1 := by
  fun_induction runTo last m events with
  | case1 m events hlast hheld =>
      rw [rounds_of_held hheld]
      exact .done m
  | case2 m events hlast hfree start o events' hgrown ih =>
      -- The run lets a requested step through on its way, and `ready` is the machine after that.
      have hstep : o = m.ready.step := by rw [ready]; rfl
      rw [hstep] at hgrown ih ⊢
      rw [rounds_of_grown hlast hfree hgrown]
      exact .round ih
  | case3 m events hlast hfree start o events' hstuck =>
      have hstep : o = m.ready.step := by rw [ready]; rfl
      rw [hstep] at hstuck ⊢
      rw [rounds_of_stuck hlast hfree hstuck]
      exact .round (.done _)
  | case4 m events hlast =>
      rw [rounds_of_spent hlast]
      exact .done m

/-- A run tells what its rounds tell. -/
theorem runTo_events (last : UInt64) (m : Machine B) (events : List Event) :
    (runTo last m events).2 =
      ((rounds last m).flatMap fun m => m.step.events).reverse ++ events := by
  fun_induction runTo last m events with
  | case1 m events hlast hheld =>
      rw [rounds_of_held hheld]
      rfl
  | case2 m events hlast hfree start o events' hgrown ih =>
      have hstep : o = m.ready.step := by rw [ready]; rfl
      simp only [events', hstep] at hgrown ih ⊢
      rw [ih, rounds_of_grown hlast hfree hgrown, List.flatMap_cons, List.reverse_append,
        List.append_assoc]
  | case3 m events hlast hfree start o events' hstuck =>
      have hstep : o = m.ready.step := by rw [ready]; rfl
      simp only [events', hstep] at hstuck ⊢
      rw [rounds_of_stuck hlast hfree hstuck, List.flatMap_singleton]
  | case4 m events hlast =>
      rw [rounds_of_spent hlast]
      rfl

theorem run_events (m : Machine B) (budget : UInt64) :
    (m.run budget).events =
      (rounds (target m.core.cycles budget) m).flatMap fun m => m.step.events := by
  have h := runTo_events (target m.core.cycles budget) m []
  rw [List.append_nil] at h
  exact (congrArg List.reverse h).trans (List.reverse_reverse _)

end Machine

end W65C816
