import W65C816.Proofs.Machine.Budget
import W65C816.Proofs.Machine.History

/-!
# Steps that do something, and cores that rest

A step gives no cycles exactly when the core rests, and then it changes nothing at all. A core that
has carried out STP rests until a reset, whatever else is done to it.

* `Core.resting_iff` spells out the reasons to rest.
* `Halted` says by the past alone that a core is stopped. `Clocked` ties the core and its panel to
  the past: one lemma for each kind of incident, then steps, runs and commands as in the history of
  interrupts.
* `steps_progress_or_rest` puts this together with what steps cost.
-/

namespace W65C816

/-! ## Reasons to rest -/

namespace Core

/-- The reasons to rest, in words: a reset is held, the core is not ready, it is stopped, or it
    waits and nothing has come. -/
theorem resting_iff (c : Core) (irqLine : Bool) :
    c.resting irqLine = true ↔ c.pins.reset = true ∨ c.pins.ready = false ∨ c.stopped = true ∨
      (c.waiting = true ∧ c.abortPending = false ∧ c.nmiPending = false ∧ irqLine = false) := by
  simp [resting, halted, roused, or_assoc, and_assoc]

theorem due_ne_idle (c : Core) (irqLine : Bool) : c.due irqLine ≠ .idle := by
  rw [due]
  split
  · exact nofun
  split
  · exact nofun
  split
  · exact nofun
  · exact nofun

end Core

namespace Machine

variable {B : Type} [Bus B] {m : Machine B}

theorem activity_eq_idle_iff (m : Machine B) :
    m.activity = .idle ↔ m.core.resting m.irqLine = true := by
  rw [activity_eq_due]
  by_cases h : m.core.resting m.irqLine = true
  · rw [if_pos h]
    exact ⟨fun _ => h, fun _ => rfl⟩
  · rw [if_neg h]
    exact ⟨fun hidle => absurd hidle (m.core.due_ne_idle m.irqLine), fun hrests => absurd hrests h⟩

theorem not_stopped_of_active (h : m.activity ≠ .idle) : m.core.stopped = false := by
  cases hstopped : m.core.stopped with
  | false => rfl
  | true =>
      refine absurd (m.activity_eq_idle_iff.mpr ?_) h
      exact (m.core.resting_iff m.irqLine).mpr (.inr (.inr (.inl hstopped)))

/-- Runs give no cycles when the core is stopped. -/
theorem result_run_of_stopped (h : m.core.stopped = true) (budget : UInt64) :
    (m.run budget).result = 0 := by
  have hready : m.ready.core.stopped = true := by
    rw [ready]
    cases m.core.panel.paused with
    | true => exact h
    | false => exact h
  have hidle : m.ready.step = ⟨0, m.ready, []⟩ := by
    refine step_idle (m.ready.activity_eq_idle_iff.mpr ?_)
    exact (m.ready.core.resting_iff m.ready.irqLine).mpr (.inr (.inr (.inl hready)))
  -- The run makes no round, or one that does not get on and is the last.
  have hcycles : (runTo (target m.core.cycles budget) m []).1.core.cycles = m.core.cycles := by
    rw [runTo_eq_ready, hidle]
    split
    · split
      · rfl
      · simp only [cycles_ready, UInt64.lt_irrefl, if_false]
    · rfl
  have hresult : (m.run budget).result =
      (runTo (target m.core.cycles budget) m []).1.core.cycles - m.core.cycles := rfl
  rw [hresult, hcycles, UInt64.sub_self]

end Machine

/-! ## Stopped by the past -/

/-- STP has been carried out, and no reset has come since. -/
def Halted : List Incident → Prop :=
  Since (fun _ x => x = .executed .stp) fun y => y ≠ .reset

/-- STP halts, and a reset ends it. Anything else leaves it as it was. -/
theorem halted_concat {past : List Incident} {x : Incident} :
    Halted (past ++ [x]) ↔ x = .executed .stp ∨ (Halted past ∧ x ≠ .reset) :=
  since_concat x

/-- What the core does by itself: it serves an interrupt or carries out an instruction. -/
def Incident.IsWork : Incident → Prop
  | served _ | executed _ => True
  | _ => False

/-- A core whose panel shows its count, and that is stopped as its past says. -/
structure Clocked (past : List Incident) (c : Core) : Prop where
  shown : c.panel.cycles = c.cycles
  stopped : c.stopped = true ↔ Halted past
  still : Throughout (fun before x => Halted before → ¬ x.IsWork) past

namespace Effect

/-- Of all effects, one stops the core. -/
theorem stopped_settle (c : Core) (e : Effect) :
    (e.settle c).stopped = true ↔ e = .stop ∨ c.stopped = true := by
  cases e with
  | stop => exact ⟨fun _ => .inl rfl, fun _ => rfl⟩
  | _ => exact ⟨.inr, fun h => h.elim nofun id⟩

end Effect

/-- Only STP has the effect that stops the core. -/
theorem Instruction.effect_eq_stop_iff (i : Instruction) :
    i.effect = .stop ↔ i.operation = .stp := by
  obtain ⟨operation, mode, baseCycles⟩ := i
  cases operation with
  | stp => exact ⟨fun _ => rfl, fun _ => rfl⟩
  | _ => exact ⟨nofun, nofun⟩

namespace Clocked

variable {past : List Incident} {c c' : Core} {x : Incident}

theorem powerOn (configuration : Configuration) : Clocked [] (.powerOn configuration) where
  shown := rfl
  stopped := ⟨nofun, fun h => absurd h not_since_nil⟩
  still := throughout_nil

/-- Cores with the same clock and the same brake. -/
theorem frame (h : Clocked past c) (hcycles : c'.cycles = c.cycles)
    (hpanel : c'.panel.cycles = c.panel.cycles) (hstopped : c'.stopped = c.stopped) :
    Clocked past c' where
  shown := by rw [hpanel, hcycles, h.shown]
  stopped := by rw [hstopped, h.stopped]
  still := h.still

/-- What is done from outside, short of a reset, does not set a stopped core going. -/
theorem outside (h : Clocked past c) (hwork : ¬ x.IsWork) (hreset : x ≠ .reset) :
    Clocked (past ++ [x]) c where
  shown := h.shown
  stopped := by
    have hstp : x ≠ .executed .stp := by
      rintro rfl
      exact hwork trivial
    rw [h.stopped, halted_concat]
    simp [hstp, hreset]
  still := h.still.concat fun _ => hwork

variable {B : Type} [Bus B] {m m' : Machine B}

theorem reset (h : Clocked past m.core) : Clocked (past ++ [.reset]) m.reset.machine.core where
  shown := h.shown
  stopped := by
    rw [halted_concat]
    exact ⟨nofun, by simp⟩
  still := h.still.concat fun _ => id

/-- An interrupt is served by a core that is not stopped, and does not stop it. -/
theorem interrupt {source : Interrupt} (h : Clocked past m.core)
    (ha : m.activity = .interrupt source) :
    Clocked (past ++ [.served source]) m.step.machine.core := by
  have hrunning := Machine.not_stopped_of_active (m := m) (by rw [ha]; exact nofun)
  obtain ⟨s, pc, -, hbeside⟩ := Machine.step_interrupt ha
  constructor
  · rw [Machine.step_eq_serve ha]
    rfl
  · have hsame : (m.core.wake.acknowledge source).stopped = m.core.stopped := by
      cases source with
      | abort | nmi | irq | brk | cop => rfl
    rw [hbeside.stopped, hsame, h.stopped, halted_concat]
    simp
  · refine h.still.concat fun hhalted => ?_
    rw [h.stopped.mpr hhalted] at hrunning
    exact nomatch hrunning

/-- An instruction is carried out by a core that is not stopped, and STP stops it. -/
theorem instruction (h : Clocked past m.core) (ha : m.activity = .instruction) :
    Clocked (past ++ [.executed m.fetched.operation]) m.step.machine.core := by
  have hrunning := Machine.not_stopped_of_active (m := m) (by rw [ha]; exact nofun)
  obtain ⟨r, -, -, hbeside⟩ := Machine.step_instruction ha
  have hwake : m.core.wake.stopped = m.core.stopped := rfl
  constructor
  · rw [Machine.step_eq_advance ha]
    rfl
  · rw [hbeside.stopped, Effect.stopped_settle, Instruction.effect_eq_stop_iff, hwake, h.stopped,
      halted_concat]
    simp
  · refine h.still.concat fun hhalted => ?_
    rw [h.stopped.mpr hhalted] at hrunning
    exact nomatch hrunning

theorem step (h : Clocked past m.core) :
    Clocked (past ++ m.stepIncidents) m.step.machine.core := by
  rw [Machine.stepIncidents]
  cases ha : m.activity with
  | idle =>
      rw [Machine.step_idle ha, List.append_nil]
      exact h
  | interrupt source => exact h.interrupt ha
  | instruction => exact h.instruction ha

omit [Bus B] in
theorem ready (h : Clocked past m.core) : Clocked past m.ready.core := by
  rw [Machine.ready]
  cases m.core.panel.paused with
  | true => exact h.frame rfl rfl rfl
  | false => exact h

theorem rounds {l : List (Machine B)} (hrounds : m.Rounds l m') (h : Clocked past m.core) :
    Clocked (past ++ l.flatMap Machine.stepIncidents) m'.core :=
  hrounds.carries (fun _ hm => ready hm) (fun _ hm => step hm) h

/-- Of all edges, the release of the reset line is a reset. -/
theorem setPin (h : Clocked past m.core) (pin : Pin) (level : Bool) :
    Clocked (past ++ m.pinIncidents pin level) (m.setPin pin level).machine.core := by
  have hdriven : Clocked (past ++ [.driven pin level]) m.core := h.outside nofun nofun
  by_cases hpin : pin = .reset
  · subst hpin
    rw [Machine.pinIncidents, Machine.setPin]
    by_cases hreleased : m.core.pins.reset = true ∧ level = false
    · rw [if_pos ⟨rfl, hreleased⟩, if_pos (by simp [hreleased]), List.append_cons]
      exact reset (m := { m with
        core := { m.core with pins := { m.core.pins with reset := level } } })
        (hdriven.frame rfl rfl rfl)
    · rw [if_neg fun hall => hreleased hall.2, if_neg (by simpa using hreleased)]
      exact hdriven.frame rfl rfl rfl
  · rw [Machine.pinIncidents, if_neg fun hall => hpin hall.1]
    cases pin with
    | reset => exact absurd rfl hpin
    | ready | irq | nmi | abort => exact hdriven.frame rfl rfl rfl

/-- What happens in a command is all that it has to do with the clock and with being stopped. -/
theorem perform (h : Clocked past m.core) (command : Command) :
    Clocked (past ++ m.incidents command) (m.perform command).machine.core := by
  have hnothing : Clocked (past ++ []) m.core := by
    rw [List.append_nil]
    exact h
  cases command with
  | step => exact h.step
  | run budget => exact h.rounds (Machine.runTo_rounds _ m [])
  | reset => exact h.reset
  | setPin pin level => exact h.setPin pin level
  | setStatus v => exact (h.outside (x := .statusSet) nofun nofun).frame rfl rfl rfl
  | _ => exact hnothing.frame rfl rfl rfl

end Clocked

/-- By induction on the past, command by command. -/
theorem Machine.HasPast.clocked {B : Type} [Bus B] {m : Machine B} {past : List Incident}
    (h : m.HasPast past) : Clocked past m.core := by
  induction h with
  | start bus configuration =>
      exact Clocked.reset (m := ⟨.powerOn configuration, bus⟩) (.powerOn configuration)
  | perform _ command ih => exact ih.perform command
  | alterBus _ bus ih => exact ih

/-- What a step of a machine with a past gives, on any bus.

    * It gives no cycles exactly when the reset pin is asserted, the ready pin is not, the core is
      stopped, or it waits and nothing rouses it. Such a step changes nothing.
    * Every other step takes between two and nine cycles, but for a block move, which takes seven
      cycles for each byte. The count grows by just the result, and the panel shows the count.
    * After STP, nothing but a reset sets the core going. It serves no interrupt and carries out no
      instruction, and neither steps nor runs give cycles. -/
theorem steps_progress_or_rest {B : Type} [Bus B] {m : Machine B} {past : List Incident}
    (h : m.HasPast past) (hroom : m.core.cycles.toNat + 458752 < UInt64.size) :
    (m.step.result = 0 ↔ m.core.pins.reset = true ∨ m.core.pins.ready = false ∨
      m.core.stopped = true ∨ (m.core.waiting = true ∧ m.core.abortPending = false ∧
        m.core.nmiPending = false ∧ m.core.pins.irq = false ∧ Bus.irqActive m.bus = false)) ∧
    (m.step.result = 0 → m.step = ⟨0, m, []⟩) ∧
    (m.step.result ≠ 0 → if m.activity = .instruction ∧ m.fetched.movesBlock then
        m.step.result.toNat = 7 * (m.core.a.toNat + 1)
      else 2 ≤ m.step.result.toNat ∧ m.step.result.toNat ≤ 9) ∧
    m.step.machine.core.cycles.toNat = m.core.cycles.toNat + m.step.result.toNat ∧
    m.core.panel.cycles = m.core.cycles ∧
    ∀ before after, past = before ++ .executed .stp :: after → .reset ∉ after →
      (∀ x ∈ after, ¬ x.IsWork) ∧ m.step = ⟨0, m, []⟩ ∧ ∀ budget, (m.run budget).result = 0 := by
  have hclocked := h.clocked
  have hidle : m.step.result = 0 ↔ m.core.resting m.irqLine = true := by
    rw [m.result_step_eq_zero_iff, ← m.activity_eq_idle_iff]
    rfl
  have hnothing : m.core.resting m.irqLine = true → m.step = ⟨0, m, []⟩ := by
    intro hrests
    exact Machine.step_idle (m.activity_eq_idle_iff.mpr hrests)
  refine ⟨?_, fun hzero => hnothing (hidle.mp hzero), ?_, Machine.toNat_cycles_step hroom,
    hclocked.shown, ?_⟩
  · rw [hidle, Core.resting_iff, Machine.irqLine, Bool.or_eq_false_iff]
  · intro hmoves
    exact Machine.step_bounds (mt m.result_step_eq_zero_iff.mpr hmoves)
  · rintro before after rfl hreset
    have hhalted : Halted (before ++ .executed .stp :: after) :=
      ⟨before, _, after, rfl, rfl, fun y hy hy' => hreset (hy' ▸ hy)⟩
    have hstopped := hclocked.stopped.mpr hhalted
    have hrests := (m.core.resting_iff m.irqLine).mpr (.inr (.inr (.inl hstopped)))
    refine ⟨?_, hnothing hrests, Machine.result_run_of_stopped hstopped⟩
    intro x hx
    -- Whatever has happened since STP has happened to a stopped core.
    obtain ⟨early, late, rfl⟩ := List.append_of_mem hx
    refine hclocked.still (before ++ .executed .stp :: early) x late (by simp) ?_
    refine ⟨before, _, early, rfl, rfl, ?_⟩
    rintro y hy rfl
    exact hreset (List.mem_append_left _ hy)

/-- A core that carries out STP, and then gets an edge of NMI and a jump. -/
theorem stopped_in_spite_of_nmi :
    let m := (Machine.start (Memory.blank.set ⟨0, 0⟩ 0xDB) .standard).machine
    let m := (m.perform .step).machine
    let m := (m.perform (.setPin .nmi true)).machine
    let m := (m.perform (.jump ⟨2, 0x1000⟩)).machine
    m.HasPast [.reset, .executed .stp, .driven .nmi true] ∧ m.core.cycles.toNat = 3 ∧
      m.core.nmiPending = true ∧ m.step = ⟨0, m, []⟩ := by
  intro m₀ m₁ m₂ m₃
  have hstp : m₀.incidents .step = [.executed .stp] := by decide +kernel
  have hfirst : m₁.HasPast ([.reset] ++ m₀.incidents .step) :=
    (Machine.HasPast.start _ .standard).perform .step
  rw [hstp] at hfirst
  have hpast : m₃.HasPast [.reset, .executed .stp, .driven .nmi true] :=
    (hfirst.perform (.setPin .nmi true)).perform (.jump ⟨2, 0x1000⟩)
  have hcycles : m₃.core.cycles.toNat = 3 := by decide +kernel
  have hroom : m₃.core.cycles.toNat + 458752 < UInt64.size := by
    rw [hcycles]
    decide
  have hnmi : m₃.core.nmiPending = true := by decide +kernel
  obtain ⟨-, -, -, -, -, hstopped⟩ := steps_progress_or_rest hpast hroom
  exact ⟨hpast, hcycles, hnmi, (hstopped [.reset] [.driven .nmi true] rfl (by decide)).2.1⟩

end W65C816
