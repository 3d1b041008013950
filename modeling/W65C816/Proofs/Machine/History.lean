import W65C816.Proofs.Machine.Entitlement
import W65C816.Proofs.Machine.Rounds

/-!
# Interrupts and the past

Whether an interrupt is latched is a matter of the past: of edges, of resets and of the interrupts
served since. This is told without looking at the latches.

* `Incident` is what matters of the past, `Machine.incidents` what a command adds to it, and
  `Machine.HasPast` relates a machine to all the incidents since its start, the earliest first.
* `Since` and `Throughout` speak of lists of incidents as of a past. `Raised` says that an edge is
  still to be served, `Locked` that nothing has released interrupt requests since the last one.
* `Core.Undergoes` is what one incident does to the core, `Consistent` ties the core to the past,
  and `Consistent.undergo` is the step of the induction. A run is made of rounds, so
  `Consistent.rounds` carries it through.
* `interrupts_follow_past` is the result about all machines with a past.
-/

namespace W65C816

/-! ## The past -/

section Past

variable {α : Type} {past : List α}

/-- Something like this has happened, and only quiet things since. -/
def Since (happens : List α → α → Prop) (quiet : α → Prop) (past : List α) : Prop :=
  ∃ before x after, past = before ++ x :: after ∧ happens before x ∧ ∀ y ∈ after, quiet y

/-- Whatever has happened has happened like this. -/
def Throughout (happens : List α → α → Prop) (past : List α) : Prop :=
  ∀ before x after, past = before ++ x :: after → happens before x

/-- What happened last is at the end, and what happened before is in the past before it. -/
theorem concat_eq_append_cons {x y : α} {before after : List α}
    (h : past ++ [x] = before ++ y :: after) :
    (before = past ∧ y = x ∧ after = []) ∨
      ∃ l, after = l ++ [x] ∧ past = before ++ y :: l := by
  rcases List.eq_nil_or_concat after with rfl | ⟨l, z, rfl⟩
  · obtain ⟨rfl, hx⟩ := List.append_inj' h rfl
    obtain ⟨rfl, -⟩ := List.cons_eq_cons.mp hx
    exact .inl ⟨rfl, rfl, rfl⟩
  · rw [List.concat_eq_append, ← List.cons_append, ← List.append_assoc] at h
    rw [List.concat_eq_append]
    obtain ⟨rfl, hx⟩ := List.append_inj' h rfl
    obtain ⟨rfl, -⟩ := List.cons_eq_cons.mp hx
    exact .inr ⟨l, rfl, rfl⟩

variable {happens : List α → α → Prop} {quiet : α → Prop}

theorem not_since_nil : ¬ Since happens quiet ([] : List α) := by
  rintro ⟨before, x, after, h, -⟩
  exact List.append_ne_nil_of_right_ne_nil before (List.cons_ne_nil x after) h.symm

/-- An incident that is added either happens itself, or leaves what has happened in place by being
    quiet. -/
theorem since_concat (x : α) :
    Since happens quiet (past ++ [x]) ↔ happens past x ∨ (Since happens quiet past ∧ quiet x) := by
  constructor
  · rintro ⟨before, y, after, h, hy, hafter⟩
    obtain ⟨rfl, rfl, rfl⟩ | ⟨l, rfl, rfl⟩ := concat_eq_append_cons h
    · exact .inl hy
    · exact .inr ⟨⟨before, y, l, rfl, hy, fun z hz => hafter z (by simp [hz])⟩,
        hafter x (by simp)⟩
  · rintro (hx | ⟨⟨before, y, after, rfl, hy, hafter⟩, hx⟩)
    · exact ⟨past, x, [], rfl, hx, by simp⟩
    · refine ⟨before, y, after ++ [x], by simp, hy, ?_⟩
      intro z hz
      rcases List.mem_append.mp hz with hz | hz
      · exact hafter z hz
      · rwa [List.mem_singleton.mp hz]

theorem throughout_nil : Throughout happens ([] : List α) := by
  intro before x after h
  exact absurd h.symm (List.append_ne_nil_of_right_ne_nil before (List.cons_ne_nil x after))

/-- What has held throughout still does when it holds of the newest incident. -/
theorem Throughout.concat {x : α} (h : Throughout happens past) (hx : happens past x) :
    Throughout happens (past ++ [x]) := by
  intro before y after hpast
  obtain ⟨rfl, rfl, -⟩ | ⟨l, -, rfl⟩ := concat_eq_append_cons hpast
  · exact hx
  · exact h before y l rfl

end Past

/-! ## Incidents -/

/-- Something in the life of a machine that matters to its interrupts. -/
inductive Incident where
  | reset
  | driven (pin : Pin) (level : Bool)
  | statusSet
  | served (source : Interrupt)
  | executed (operation : Operation)
  deriving DecidableEq, Repr

/-- What can make the processor accept interrupt requests again. -/
def Incident.Releases : Incident → Prop
  | statusSet => True
  | executed operation => operation ∈ [.cli, .rep, .plp, .rti]
  | _ => False

/-- An interrupt that has been served, if the incident is one. -/
def Incident.service : Incident → Option Interrupt
  | served source => some source
  | _ => none

/-- An interrupt from outside that has been entered, if the event tells of one. -/
def Event.service : Event → Option Interrupt
  | interruptEntered source _ _ _ => if source ∈ [.brk, .cop] then none else some source
  | _ => none

/-- True when a step has to do nothing: the core is held or stopped, or it waits for a reason. -/
def Core.resting (c : Core) (irqLine : Bool) : Bool :=
  c.halted || c.waiting && !c.roused irqLine

/-- What comes first: an abort, then NMI, then a request that is not disabled, then the program. -/
def Core.due (c : Core) (irqLine : Bool) : Activity :=
  if c.abortPending then .interrupt .abort
  else if c.nmiPending then .interrupt .nmi
  else if irqLine && !c.status.irqDisable then .interrupt .irq
  else .instruction

namespace Machine

variable {B : Type} [Bus B]

/-- What the next step does. -/
def activity (m : Machine B) : Activity :=
  m.core.decide m.irqLine

/-- The outcome of doing one thing. -/
def doing (m : Machine B) : Activity → Outcome B UInt64
  | .idle => ⟨0, m, []⟩
  | .interrupt source => account m.core.cycles (serve { m with core := m.core.wake } source)
  | .instruction => account m.core.cycles (advance { m with core := m.core.wake })

/-- What happens in a step. -/
def stepIncidents (m : Machine B) : List Incident :=
  match m.activity with
  | .idle => []
  | .interrupt source => [.served source]
  | .instruction => [.executed m.fetched.operation]

theorem mem_stepIncidents {m : Machine B} {source : Interrupt} :
    .served source ∈ m.stepIncidents ↔ m.activity = .interrupt source := by
  rw [stepIncidents]
  cases m.activity with
  | idle => simp
  | interrupt other => simp [eq_comm]
  | instruction => simp

/-- What happens when a pin is driven: the release of the reset pin resets the machine. -/
def pinIncidents (m : Machine B) (pin : Pin) (level : Bool) : List Incident :=
  if pin = .reset ∧ m.core.pins.reset = true ∧ level = false then
    [.driven pin level, .reset]
  else
    [.driven pin level]

/-- What happens when a command is carried out. -/
def incidents (m : Machine B) : Command → List Incident
  | .step => m.stepIncidents
  | .run budget => (rounds (target m.core.cycles budget) m).flatMap stepIncidents
  | .reset => [.reset]
  | .setPin pin level => m.pinIncidents pin level
  | .setStatus _ => [.statusSet]
  | _ => []

/-- A machine that comes from a start by commands, and what has happened to it. Between the
    commands, anything can happen to its bus. -/
inductive HasPast : Machine B → List Incident → Prop where
  | start (bus : B) (configuration : Configuration) :
      HasPast (start bus configuration).machine [.reset]
  | perform {m : Machine B} {past : List Incident} (h : HasPast m past) (command : Command) :
      HasPast (m.perform command).machine (past ++ m.incidents command)
  | alterBus {m : Machine B} {past : List Incident} (h : HasPast m past) (bus : B) :
      HasPast { m with bus } past

end Machine

/-! ## Latches -/

/-- An interrupt that is latched on an edge. -/
inductive Latch where
  | nmi
  | abort
  deriving DecidableEq, Repr

namespace Latch

/-- The pin whose edges are latched. -/
def pin : Latch → Pin
  | nmi => .nmi
  | abort => .abort

/-- The interrupt that a latched edge leads to. -/
def source : Latch → Interrupt
  | nmi => .nmi
  | abort => .abort

theorem source_injective {latch other : Latch} (h : latch.source = other.source) :
    latch = other := by
  cases latch <;> cases other <;> first | rfl | exact nomatch h

/-- Requests are not latched. -/
theorem source_ne_irq (latch : Latch) : latch.source ≠ .irq := by
  cases latch <;> exact nofun

end Latch

namespace Core

/-- Whether the pin of a latch is asserted. -/
def asserted (c : Core) : Latch → Bool
  | .nmi => c.pins.nmi
  | .abort => c.pins.abort

/-- Whether an edge is latched. -/
def latched (c : Core) : Latch → Bool
  | .nmi => c.nmiPending
  | .abort => c.abortPending

end Core

/-- The pin was asserted when it was last driven. -/
def Asserted (latch : Latch) : List Incident → Prop :=
  Since (fun _ x => x = .driven latch.pin true) fun y => ∀ level, y ≠ .driven latch.pin level

/-- An edge has come, and neither a reset nor the service of the interrupt since. -/
def Raised (latch : Latch) : List Incident → Prop :=
  Since (fun before x => x = .driven latch.pin true ∧ ¬ Asserted latch before)
    fun y => y ≠ .reset ∧ y ≠ .served latch.source

/-- An interrupt request has been served, and nothing has released requests since. -/
def Locked : List Incident → Prop :=
  Since (fun _ x => x = .served .irq) fun y => ¬ y.Releases

/-- A pin is asserted as it has been driven last. -/
theorem asserted_concat {latch : Latch} {past : List Incident} {x : Incident} :
    Asserted latch (past ++ [x]) ↔ x = .driven latch.pin true ∨
      (Asserted latch past ∧ ∀ level, x ≠ .driven latch.pin level) :=
  since_concat x

/-- An edge is raised by driving a pin that was not asserted, until it is served or a reset forgets
    it. -/
theorem raised_concat {latch : Latch} {past : List Incident} {x : Incident} :
    Raised latch (past ++ [x]) ↔ (x = .driven latch.pin true ∧ ¬ Asserted latch past) ∨
      (Raised latch past ∧ x ≠ .reset ∧ x ≠ .served latch.source) :=
  since_concat x

/-- A request that is served locks out others until the lock is released. -/
theorem locked_concat {past : List Incident} {x : Incident} :
    Locked (past ++ [x]) ↔ x = .served .irq ∨ (Locked past ∧ ¬ x.Releases) :=
  since_concat x

/-- A core that is as its past says. -/
structure Consistent (past : List Incident) (c : Core) : Prop where
  asserted : ∀ latch, c.asserted latch = true ↔ Asserted latch past
  latched : ∀ latch, c.latched latch = true ↔ Raised latch past
  locked : Locked past → c.status.irqDisable = true
  served : Throughout (fun before x => ∀ latch : Latch, x = .served latch.source →
    Raised latch before) past
  requested : Throughout (fun before x => x = .served .irq → ¬ Locked before) past

/-! ## What an incident does -/

/-- A core before and after an incident. -/
structure Core.Undergoes (x : Incident) (c c' : Core) : Prop where
  asserted : ∀ latch, c'.asserted latch = true ↔
    x = .driven latch.pin true ∨ (c.asserted latch = true ∧ ∀ level, x ≠ .driven latch.pin level)
  latched : ∀ latch, c'.latched latch = true ↔
    (x = .driven latch.pin true ∧ ¬ c.asserted latch = true) ∨
      (c.latched latch = true ∧ x ≠ .reset ∧ x ≠ .served latch.source)
  locked : x = .served .irq ∨ (c.status.irqDisable = true ∧ ¬ x.Releases) →
    c'.status.irqDisable = true
  served : ∀ latch : Latch, x = .served latch.source → c.latched latch = true
  requested : x = .served .irq → c.status.irqDisable = false

namespace Consistent

variable {past : List Incident} {c c' : Core} {x : Incident}

theorem powerOn (configuration : Configuration) : Consistent [] (.powerOn configuration) where
  asserted latch := by
    cases latch with
    | nmi | abort => exact ⟨nofun, fun h => absurd h not_since_nil⟩
  latched latch := by
    cases latch with
    | nmi | abort => exact ⟨nofun, fun h => absurd h not_since_nil⟩
  locked h := absurd h not_since_nil
  served := throughout_nil
  requested := throughout_nil

/-- The past of a core goes on with what it undergoes. -/
theorem undergo (h : Consistent past c) (hx : c.Undergoes x c') : Consistent (past ++ [x]) c' where
  asserted latch := by
    rw [hx.asserted, h.asserted, asserted_concat]
  latched latch := by
    rw [hx.latched, h.asserted, h.latched, raised_concat]
  locked hlocked := by
    rcases locked_concat.mp hlocked with hserved | ⟨hbefore, hquiet⟩
    · exact hx.locked (.inl hserved)
    · exact hx.locked (.inr ⟨h.locked hbefore, hquiet⟩)
  served := h.served.concat fun latch hlatch => (h.latched latch).mp (hx.served latch hlatch)
  requested := by
    refine h.requested.concat ?_
    intro hserved hlocked
    have hclear := hx.requested hserved
    have hset := h.locked hlocked
    rw [hclear] at hset
    exact Bool.false_ne_true hset

/-- What is none of these incidents leaves the core as the past says. -/
theorem frame (h : Consistent past c) (hpins : ∀ latch, c'.asserted latch = c.asserted latch)
    (hlatches : ∀ latch, c'.latched latch = c.latched latch)
    (hirq : c.status.irqDisable = true → c'.status.irqDisable = true) : Consistent past c' where
  asserted latch := by rw [hpins, h.asserted]
  latched latch := by rw [hlatches, h.latched]
  locked hlocked := hirq (h.locked hlocked)
  served := h.served
  requested := h.requested

end Consistent

/-! ## Steps -/

namespace Core

variable {c c' : Core} {x : Incident}

theorem Beside.asserted (h : c.Beside c') (latch : Latch) :
    c'.asserted latch = c.asserted latch := by
  cases latch with
  | nmi => exact congrArg Pins.nmi h.pins
  | abort => exact congrArg Pins.abort h.pins

theorem Beside.latched (h : c.Beside c') (latch : Latch) : c'.latched latch = c.latched latch := by
  cases latch with
  | nmi => exact h.nmiPending
  | abort => exact h.abortPending

theorem latched_acknowledge (c : Core) (latch : Latch) (source : Interrupt) :
    (c.acknowledge source).latched latch = true ↔
      c.latched latch = true ∧ source ≠ latch.source := by
  cases latch with
  | nmi => cases source <;> simp [latched, acknowledge, Latch.source]
  | abort => cases source <;> simp [latched, acknowledge, Latch.source]

/-- What is served is latched, or a request that is not disabled. -/
theorem served_latched {irqLine : Bool} {source : Interrupt}
    (h : c.decide irqLine = .interrupt source) :
    (∃ latch : Latch, source = latch.source ∧ c.latched latch = true) ∨
      (source = .irq ∧ c.status.irqDisable = false) := by
  obtain ⟨rfl, habort⟩ | ⟨rfl, hnmi⟩ | hirq := decide_interrupt h
  · exact .inl ⟨.abort, rfl, habort⟩
  · exact .inl ⟨.nmi, rfl, hnmi⟩
  · exact .inr hirq

/-- What is no reset, edge or service leaves pins and latches alone. -/
theorem undergoes_of_eq (hx : x = .statusSet ∨ ∃ operation, x = .executed operation)
    (hpins : ∀ latch, c'.asserted latch = c.asserted latch)
    (hlatches : ∀ latch, c'.latched latch = c.latched latch)
    (hirq : c.status.irqDisable = true → ¬ x.Releases → c'.status.irqDisable = true) :
    c.Undergoes x c' := by
  have hdriven : ∀ pin level, x ≠ .driven pin level := by
    rintro pin level rfl
    simp at hx
  have hreset : x ≠ .reset := by
    rintro rfl
    simp at hx
  have hserved : ∀ source, x ≠ .served source := by
    rintro source rfl
    simp at hx
  constructor
  · intro latch
    simp [hpins, hdriven]
  · intro latch
    simp [hlatches, hdriven, hreset, hserved]
  · rintro (h | ⟨hset, hquiet⟩)
    · exact absurd h (hserved .irq)
    · exact hirq hset hquiet
  · intro latch h
    exact absurd h (hserved latch.source)
  · intro h
    exact absurd h (hserved .irq)

end Core

namespace Machine

variable {B : Type} [Bus B] {m m' : Machine B} {past : List Incident}

theorem reset_undergoes (m : Machine B) : m.core.Undergoes .reset m.reset.machine.core := by
  constructor
  · intro latch
    cases latch with
    | nmi | abort => simp [reset, Core.asserted, Core.mapRegisters]
  · intro latch
    cases latch with
    | nmi | abort => simp [reset, Core.latched]
  · exact fun _ => rfl
  · exact fun _ => nofun
  · exact nofun

/-- Serving an interrupt forgets its edge, and masks further requests. -/
theorem interrupt_undergoes {source : Interrupt} (h : m.activity = .interrupt source) :
    m.core.Undergoes (.served source) m.step.machine.core := by
  obtain ⟨s, pc, hregisters, hbeside⟩ := step_interrupt h
  constructor
  · intro latch
    rw [hbeside.asserted]
    cases source <;> simp [Core.acknowledge, Core.wake, Core.asserted]
  · intro latch
    rw [hbeside.latched, Core.latched_acknowledge]
    simp [Core.latched, Core.wake]
  · intro _
    rw [hregisters]
    rfl
  · intro latch hlatch
    obtain rfl := Incident.served.inj hlatch
    obtain ⟨other, hother, hset⟩ | ⟨hirq, -⟩ := Core.served_latched h
    · rwa [latch.source_injective hother]
    · exact absurd hirq (latch.source_ne_irq)
  · intro hirq
    obtain rfl := Incident.served.inj hirq
    obtain ⟨other, hother, -⟩ | ⟨-, hclear⟩ := Core.served_latched h
    · exact absurd hother.symm other.source_ne_irq
    · exact hclear

/-- An instruction leaves the latches alone, and clears the mask only if it releases the lock. -/
theorem instruction_undergoes (hsound : m.core.Sound) (h : m.activity = .instruction) :
    m.core.Undergoes (.executed m.fetched.operation) m.step.machine.core := by
  obtain ⟨r, hr, hregisters, hbeside⟩ := step_instruction h
  obtain ⟨waiting, stopped, hsettle⟩ := m.fetched.effect.settle_eq m.core.wake
  rw [hsettle] at hbeside
  refine Core.undergoes_of_eq (.inr ⟨_, rfl⟩) ?_ ?_ ?_
  · intro latch
    rw [hbeside.asserted]
    cases latch with
    | nmi | abort => rfl
  · intro latch
    rw [hbeside.latched]
    cases latch with
    | nmi | abort => rfl
  · intro hset hquiet
    -- Who may clear the flag is a part of the table of entitlements.
    have hkept := m.fetched.yields_kept (p := .irqDisable) hsound hr hquiet
    rw [hregisters]
    exact hkept hset

theorem asserted_setPin (m : Machine B) {pin : Pin} (hpin : pin ≠ .reset) (level : Bool)
    (latch : Latch) : (m.setPin pin level).machine.core.asserted latch =
      if pin = latch.pin then level else m.core.asserted latch := by
  cases latch with
  | nmi | abort =>
      cases pin with
      | reset => exact absurd rfl hpin
      | ready | irq | nmi | abort => rfl

/-- A latch is set by the edge of its own pin: the pin goes high that was low. -/
theorem latched_setPin (m : Machine B) {pin : Pin} (hpin : pin ≠ .reset) (level : Bool)
    (latch : Latch) : (m.setPin pin level).machine.core.latched latch =
      if pin = latch.pin then level && !m.core.asserted latch || m.core.latched latch
      else m.core.latched latch := by
  cases latch with
  | nmi | abort =>
      cases pin with
      | reset => exact absurd rfl hpin
      | ready | irq | nmi | abort => rfl

/-- A pin that is driven takes its level, and an edge is latched. -/
theorem drive_undergoes (m : Machine B) {pin : Pin} (hpin : pin ≠ .reset) (level : Bool) :
    m.core.Undergoes (.driven pin level) (m.setPin pin level).machine.core := by
  constructor
  · intro latch
    rw [m.asserted_setPin hpin]
    by_cases hsame : pin = latch.pin
    · rw [if_pos hsame, hsame]
      simp
    · rw [if_neg hsame]
      simp [hsame]
  · intro latch
    rw [m.latched_setPin hpin]
    by_cases hsame : pin = latch.pin
    · rw [if_pos hsame, hsame]
      simp
    · rw [if_neg hsame]
      simp [hsame]
  · rintro (h | ⟨hset, -⟩)
    · exact nomatch h
    · cases pin with
      | reset => exact absurd rfl hpin
      | ready | irq | nmi | abort => exact hset
  · exact fun _ => nofun
  · exact nofun

/-- The reset pin is no latch's. -/
theorem driveReset_undergoes (c : Core) (level : Bool) :
    c.Undergoes (.driven .reset level) { c with pins := { c.pins with reset := level } } := by
  constructor
  · intro latch
    cases latch with
    | nmi | abort => simp [Core.asserted, Latch.pin]
  · intro latch
    cases latch with
    | nmi | abort => simp [Core.latched, Latch.pin]
  · rintro (h | ⟨hset, -⟩)
    · exact nomatch h
    · exact hset
  · exact fun _ => nofun
  · exact nofun

end Machine

/-! ## Runs and commands -/

/-- What the panel and steps carry on, runs carry on. -/
theorem Machine.Rounds.carries {B : Type} [Bus B] {m m' : Machine B} {l : List (Machine B)}
    {P : List Incident → Core → Prop} {past : List Incident}
    (hready : ∀ {past} (m : Machine B), P past m.core → P past m.ready.core)
    (hstep : ∀ {past} (m : Machine B), P past m.core →
      P (past ++ m.stepIncidents) m.step.machine.core)
    (h : m.Rounds l m') (hm : P past m.core) :
    P (past ++ l.flatMap Machine.stepIncidents) m'.core := by
  induction h generalizing past with
  | done m => simpa using hm
  | @round m m' l _ ih =>
      rw [List.flatMap_cons, ← List.append_assoc]
      exact ih (hstep m.ready (hready m hm))

namespace Consistent

variable {B : Type} [Bus B] {m m' : Machine B} {past : List Incident}

theorem step (h : Consistent past m.core) (hsound : m.core.Sound) :
    Consistent (past ++ m.stepIncidents) m.step.machine.core := by
  rw [Machine.stepIncidents]
  cases ha : m.activity with
  | idle =>
      rw [Machine.step_idle ha, List.append_nil]
      exact h
  | interrupt source => exact h.undergo (Machine.interrupt_undergoes ha)
  | instruction => exact h.undergo (Machine.instruction_undergoes hsound ha)

omit [Bus B] in
/-- The panel has nothing to do with interrupts. -/
theorem ready (h : Consistent past m.core) : Consistent past m.ready.core := by
  rw [Machine.ready]
  cases m.core.panel.paused with
  | true =>
      exact h.frame (fun latch => by cases latch <;> rfl) (fun latch => by cases latch <;> rfl) id
  | false => exact h

theorem rounds {l : List (Machine B)} (hrounds : m.Rounds l m') (h : Consistent past m.core)
    (hsound : m.core.Sound) : Consistent (past ++ l.flatMap Machine.stepIncidents) m'.core := by
  have hready : ∀ m : Machine B, m.core.Sound → m.ready.core.Sound := by
    intro m hm
    rw [Core.Sound, m.toRegisters_ready]
    exact hm
  -- What a step keeps, it keeps of sound cores, so soundness is carried along.
  have hboth := hrounds.carries (P := fun past c => Consistent past c ∧ c.Sound)
    (fun m hm => ⟨hm.1.ready, hready m hm.2⟩)
    (fun m hm => ⟨hm.1.step hm.2, Machine.step_sound hm.2⟩) ⟨h, hsound⟩
  exact hboth.1

/-- Releasing the reset line is a reset. All other edges only drive a pin. -/
theorem setPin (h : Consistent past m.core) (pin : Pin) (level : Bool) :
    Consistent (past ++ m.pinIncidents pin level) (m.setPin pin level).machine.core := by
  by_cases hpin : pin = .reset
  · subst hpin
    -- Letting go of the pin is two incidents: the pin is driven, and then comes the reset.
    have hdriven := h.undergo (Machine.driveReset_undergoes m.core level)
    rw [Machine.pinIncidents, Machine.setPin]
    by_cases hreleased : m.core.pins.reset = true ∧ level = false
    · rw [if_pos ⟨rfl, hreleased⟩, if_pos (by simp [hreleased])]
      rw [List.append_cons]
      exact hdriven.undergo (Machine.reset_undergoes
        { m with core := { m.core with pins := { m.core.pins with reset := level } } })
    · rw [if_neg fun hall => hreleased hall.2, if_neg (by simpa using hreleased)]
      exact hdriven
  · rw [Machine.pinIncidents, if_neg fun hall => hpin hall.1]
    exact h.undergo (m.drive_undergoes hpin level)

/-- What happens in a command is all that it has to do with interrupts. -/
theorem perform (h : Consistent past m.core) (hsound : m.core.Sound) (command : Command) :
    Consistent (past ++ m.incidents command) (m.perform command).machine.core := by
  have hframe : ∀ c : Core, (∀ latch, c.asserted latch = m.core.asserted latch) →
      (∀ latch, c.latched latch = m.core.latched latch) →
      c.status.irqDisable = m.core.status.irqDisable → Consistent (past ++ []) c := by
    intro c hpins hlatches hirq
    rw [List.append_nil]
    exact h.frame hpins hlatches fun hset => hirq.trans hset
  cases command with
  | step => exact h.step hsound
  | run budget => exact h.rounds (Machine.runTo_rounds _ m []) hsound
  | reset => exact h.undergo m.reset_undergoes
  | setPin pin level => exact h.setPin pin level
  | setStatus v =>
      refine h.undergo (Core.undergoes_of_eq (.inl rfl) ?_ ?_ ?_)
      · exact fun latch => by cases latch <;> rfl
      · exact fun latch => by cases latch <;> rfl
      · exact fun _ hquiet => absurd trivial hquiet
  | _ =>
      refine hframe _ ?_ ?_ rfl
      · exact fun latch => by cases latch <;> rfl
      · exact fun latch => by cases latch <;> rfl

end Consistent

namespace Machine

variable {B : Type} [Bus B] {m : Machine B} {past : List Incident}

theorem HasPast.reachable (h : m.HasPast past) : m.Reachable := by
  induction h with
  | start bus configuration => exact .start bus configuration
  | perform _ command ih => exact ih.perform command
  | alterBus _ bus ih => exact ih.alterBus bus

/-- By induction on how the past came about, with a line for each kind of command. -/
theorem HasPast.consistent (h : m.HasPast past) : Consistent past m.core := by
  induction h with
  | start bus configuration =>
      exact (Consistent.powerOn configuration).undergo (reset_undergoes ⟨_, bus⟩)
  | perform h command ih => exact ih.perform h.reachable.sound command
  | alterBus _ bus ih => exact ih

/-! ## What a machine tells -/

/-- Instructions enter no interrupts from outside. -/
theorem told_services (i : Instruction) (before after : Core) :
    (told i before after).filterMap Event.service = [] := by
  obtain ⟨operation, mode, baseCycles⟩ := i
  cases operation <;> rfl

theorem advance_services (m : Machine B) : m.advance.events.filterMap Event.service = [] := by
  rw [advance_eq, List.filterMap_append, told_services, List.append_nil]
  cases m.core.trace with
  | true => rfl
  | false => rfl

/-- What a step does depends on its activity alone. -/
theorem step_eq_doing (m : Machine B) : m.step = m.doing m.activity := by
  rw [step, activity]
  cases m.core.decide m.irqLine with
  | idle | interrupt | instruction => rfl

/-- A step tells of the interrupt that it serves, and of no other from outside. -/
theorem step_services (m : Machine B) :
    m.step.events.filterMap Event.service = m.stepIncidents.filterMap Incident.service := by
  rw [step_eq_doing, stepIncidents]
  cases ha : m.activity with
  | idle => rfl
  | interrupt source =>
      obtain ⟨latch, rfl, -⟩ | ⟨rfl, -⟩ := Core.served_latched ha
      · cases latch with
        | nmi | abort => rfl
      · rfl
  | instruction => exact advance_services _

/-- Driving a pin serves no interrupt, and no event tells of one. -/
theorem setPin_services (m : Machine B) (pin : Pin) (level : Bool) :
    (m.setPin pin level).events.filterMap Event.service =
      (m.pinIncidents pin level).filterMap Incident.service := by
  have hnone : (m.pinIncidents pin level).filterMap Incident.service = [] := by
    rw [pinIncidents]
    split <;> rfl
  rw [hnone]
  cases pin with
  | ready | irq => rfl
  | reset =>
      rw [setPin]
      split <;> rfl
  | nmi =>
      simp only [setPin]
      split <;> rfl
  | abort =>
      simp only [setPin]
      split <;> rfl

/-- Whatever is done to a machine, it tells of the services among its incidents. -/
theorem perform_services (m : Machine B) (command : Command) :
    (m.perform command).events.filterMap Event.service =
      (m.incidents command).filterMap Incident.service := by
  cases command with
  | step => exact m.step_services
  | run budget =>
      change (m.run budget).events.filterMap _ =
        ((rounds (target m.core.cycles budget) m).flatMap stepIncidents).filterMap _
      rw [run_events, List.filterMap_flatMap, List.filterMap_flatMap]
      simp only [step_services]
  | setPin pin level => exact m.setPin_services pin level
  | _ => rfl

/-- A step does nothing when the core rests, and otherwise what is due. -/
theorem activity_eq_due (m : Machine B) :
    m.activity = if m.core.resting m.irqLine then .idle else m.core.due m.irqLine := by
  rw [activity, Core.decide, Core.resting]
  cases m.core.halted with
  | true => rfl
  | false =>
      cases m.core.waiting && !m.core.roused m.irqLine with
      | true => rfl
      | false => rfl

end Machine

/-- Latched interrupts, services and requests go by the past.

    * An interrupt is latched when an edge has come since the last reset and the last service of it,
      and it is served only then.
    * Between two requests that are served, something releases requests. None is served while they
      are disabled.
    * A step, in a run or not, does the one thing that is due: an abort, NMI, a request, or an
      instruction. It does nothing when the core rests.
    * The services among the incidents are those that the machine tells. -/
theorem interrupts_follow_past {B : Type} [Bus B] {m : Machine B} {past : List Incident}
    (h : m.HasPast past) :
    (∀ latch : Latch, m.core.latched latch = true ↔ Raised latch past) ∧
      (∀ (latch : Latch) before after, past = before ++ .served latch.source :: after →
        Raised latch before) ∧
      (∀ before between after,
        past = before ++ .served .irq :: (between ++ .served .irq :: after) →
          ∃ x ∈ between, x.Releases) ∧
      (∀ now : Machine B,
        (now.step =
          let line := now.core.pins.irq || Bus.irqActive now.bus
          now.doing (if now.core.resting line then .idle else now.core.due line)) ∧
        (now.core.status.irqDisable = true → .served .irq ∉ now.stepIncidents)) ∧
      ∀ (now : Machine B) command, (now.perform command).events.filterMap Event.service =
        (now.incidents command).filterMap Incident.service := by
  have hpast := h.consistent
  refine ⟨hpast.latched, ?_, ?_, ?_, Machine.perform_services⟩
  -- Each service in the past was one of a machine with the past before it, so what is known of the
  -- latches held then.
  · intro latch before after hbefore
    exact hpast.served before _ after hbefore latch rfl
  -- Two requests served with nothing between them that releases the lock would both have been
  -- served unlocked.
  · rintro before between after hall
    by_cases hreleased : ∃ x ∈ between, x.Releases
    · exact hreleased
    -- Otherwise the first request still locks out the second.
    · have hlocked : Locked (before ++ .served .irq :: between) :=
        ⟨before, _, between, rfl, rfl, fun y hy hy' => hreleased ⟨y, hy, hy'⟩⟩
      refine absurd hlocked (hpast.requested _ (.served .irq) after ?_ rfl)
      rw [hall, List.append_assoc, List.cons_append]
  -- Of the machine as it is now, the next step serves what is due.
  · intro now
    constructor
    · rw [now.step_eq_doing, now.activity_eq_due]
      rfl
    · intro hset hserved
      have hirq := Machine.mem_stepIncidents.mp hserved
      obtain ⟨latch, hlatch, -⟩ | ⟨-, hclear⟩ := Core.served_latched hirq
      · exact latch.source_ne_irq hlatch.symm
      · rw [hset] at hclear
        exact nomatch hclear

/-- An edge of NMI that is held, served, and held further. -/
theorem held_nmi_served_once :
    let m := (Machine.start Memory.blank .standard).machine
    let m := (m.perform (.setPin .nmi true)).machine
    let m := (m.perform .step).machine
    let m := (m.perform (.setPin .nmi true)).machine
    let past := [.reset, .driven .nmi true, .served .nmi, .driven .nmi true]
    m.HasPast past ∧ Raised .nmi [.reset, .driven .nmi true] ∧ ¬ Raised .nmi past := by
  intro m₀ m₁ m₂ m₃ past
  have hpast : m₃.HasPast past :=
    (((Machine.HasPast.start Memory.blank .standard).perform (.setPin .nmi true)).perform
      .step).perform (.setPin .nmi true)
  obtain ⟨hlatched, hserved, -⟩ := interrupts_follow_past hpast
  refine ⟨hpast, hserved .nmi _ [.driven .nmi true] rfl, ?_⟩
  intro hraised
  exact Bool.false_ne_true ((hlatched .nmi).mpr hraised)

end W65C816
