import W65C816.Machine.Step

/-!
# Runs

A run makes steps until its cycles are spent, until a step makes no progress, or until somebody
pauses it at the panel. While it is paused, one requested step is let through.

The count of cycles grows with every step that the run goes on from, so a run comes to an end.
-/

namespace W65C816

namespace Machine

variable {B : Type} [Bus B]

/-- The count at which a run ends. It cannot lie beyond the largest count. -/
def target (start budget : UInt64) : UInt64 :=
  if start.toNat + budget.toNat < UInt64.size then start + budget else 0xFFFFFFFFFFFFFFFF

/-- The machine after its panel has let a requested step through. -/
def takeRequest (m : Machine B) : Machine B :=
  { m with core := { m.core with panel := { m.core.panel with stepRequested := false } } }

/-- Makes steps until the count reaches `last`. The events so far are given latest first. -/
def runTo (last : UInt64) (m : Machine B) (events : List Event) : Machine B × List Event :=
  if m.core.cycles < last then
    if m.core.panel.paused && !m.core.panel.stepRequested then
      (m, events)
    else
      let start := m.core.cycles
      let o := step (if m.core.panel.paused then takeRequest m else m)
      let events := o.events.reverse ++ events
      if start < o.machine.core.cycles then
        runTo last o.machine events
      else
        (o.machine, events)
  else
    (m, events)
termination_by last.toNat - m.core.cycles.toNat
decreasing_by
  rename_i hlast _ hgrown
  exact Nat.sub_lt_sub_left (UInt64.lt_iff_toNat_lt.mp hlast) (UInt64.lt_iff_toNat_lt.mp hgrown)

/-- Runs for a number of cycles. The result is the number of cycles that it took, which can be a
    little more, because no instruction is broken off. -/
def run (m : Machine B) (budget : UInt64) : Outcome B UInt64 :=
  let start := m.core.cycles
  let (m, events) := runTo (target start budget) m []
  ⟨m.core.cycles - start, m, events.reverse⟩

end Machine

end W65C816
