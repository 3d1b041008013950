import W65C816.Machine.Console
import W65C816.Memory
import W65C816.Proofs.Backplane.Assembly
import W65C816.Proofs.Machine.Agreement

/-!
# Machines in lockstep

Two machines with the same core on buses that cannot be told apart stay like this whatever is done
to them, and show the same all the time.

* `Machine.step_agree`, `Machine.run_agree` and `Machine.perform_agree` say it of steps, of runs
  and of every command.
* `Machine.history` is all that shows of a machine while it is commanded: results, events, the core
  and the bytes on its bus. `Machine.history_eq` compares two machines by it.
* `history_tiled_eq`: regions and RAM chips that together cover the address space make a backplane
  that no program can tell from flat memory.
-/

namespace W65C816

variable {B B' : Type} {T : B → B' → Prop}

/-- Two outcomes that show the same and leave twins behind. -/
structure Outcome.Agree {α : Type} (T : B → B' → Prop) (o : Outcome B α) (o' : Outcome B' α) :
    Prop where
  result : o.result = o'.result
  events : o.events = o'.events
  twins : Twins T o.machine o'.machine

namespace Machine

/-- What a step costs is the difference of two counts in the core. -/
theorem account_agree {start : UInt64} {o : Outcome B Unit} {o' : Outcome B' Unit}
    (ho : o.Agree T o') : (account start o).Agree T (account start o') := by
  obtain ⟨hc, hT⟩ := ho.twins
  refine ⟨?_, ho.events, ?_, hT⟩
  · exact congrArg (fun c => c.publish.cycles - start) hc
  · exact congrArg Core.publish hc

/-- Taking a request to step changes the panel, which is in the core. -/
theorem takeRequest_agree {m : Machine B} {m' : Machine B'} (ht : Twins T m m') :
    Twins T (takeRequest m) (takeRequest m') :=
  ⟨congrArg (fun c : Core => { c with panel := { c.panel with stepRequested := false } }) ht.1,
    ht.2⟩

theorem onCore_agree {m : Machine B} {m' : Machine B'} (ht : Twins T m m') (f : Core → Core) :
    (m.onCore f).Agree T (m'.onCore f) :=
  ⟨rfl, rfl, congrArg f ht.1, ht.2⟩

theorem onBus_agree {m : Machine B} {m' : Machine B'} (ht : Twins T m m') {f : B → B}
    {g : B' → B'} (hf : T (f m.bus) (g m'.bus)) : (m.onBus f).Agree T (m'.onBus g) :=
  ⟨rfl, rfl, ht.1, hf⟩

theorem silent_agree {o : Outcome B Unit} {o' : Outcome B' Unit} (ho : o.Agree T o') :
    (silent o).Agree T (silent o') :=
  ⟨rfl, ho.events, ho.twins⟩

theorem counted_agree {o : Outcome B UInt64} {o' : Outcome B' UInt64} (ho : o.Agree T o') :
    (counted o).Agree T (counted o') :=
  ⟨congrArg some ho.result, ho.events, ho.twins⟩

end Machine

variable [Bus B] [Bus B']

/-- A trace line only peeks, so it shows the same on both buses. -/
theorem TraceLine.capture_eq (h : Bus.Simulation T) {b : B} {b' : B'} (hT : T b b') (c : Core) :
    capture c b = capture c b' := by
  have hpeek : ∀ a, Bus.peek b a = Bus.peek b' a := fun a => h.peek a hT
  simp only [capture, Stack.peek, hpeek]

namespace Machine

/-! ## Steps -/

/-- A reset reads the vector, and sets registers without regard to the bus. -/
theorem reset_agree (h : Bus.Simulation T) {m : Machine B} {m' : Machine B'}
    (ht : Twins T m m') : m.reset.Agree T m'.reset := by
  obtain ⟨c, b⟩ := m
  obtain ⟨c', b'⟩ := m'
  obtain ⟨hc, hT⟩ := ht
  obtain rfl : c = c' := hc
  obtain ⟨hv, hT₁⟩ :=
    h.readWordInBank ⟨0, (c.mapRegisters Registers.reset).vectors.emulation.reset⟩ hT
  simp only [reset, hv]
  exact ⟨rfl, rfl, rfl, hT₁⟩

/-- An interrupt that is served tells the core before and after it, which are the same. -/
theorem serve_agree (h : Bus.Simulation T) {m : Machine B} {m' : Machine B'}
    (ht : Twins T m m') (source : Interrupt) : (m.serve source).Agree T (m'.serve source) := by
  obtain ⟨c, b⟩ := m
  obtain ⟨c', b'⟩ := m'
  obtain ⟨hc, hT⟩ := ht
  obtain rfl : c = c' := hc
  have hbefore : Twins T ⟨c.acknowledge source, b⟩ ⟨c.acknowledge source, b'⟩ := ⟨rfl, hT⟩
  obtain ⟨-, hafter⟩ :=
    (Action.enterInterrupt_agree h source (c.acknowledge source).pc).run hbefore
  refine ⟨rfl, ?_, hafter⟩
  exact congrArg (fun after => [Event.ofEntry source (c.acknowledge source) after]) hafter.1

/-- An instruction is fetched, traced and carried out. The trace line is made after the opcode has
    been read, from a bus that this may have changed. -/
theorem advance_agree (h : Bus.Simulation T) {m : Machine B} {m' : Machine B'}
    (ht : Twins T m m') : m.advance.Agree T m'.advance := by
  obtain ⟨c, b⟩ := m
  obtain ⟨c', b'⟩ := m'
  obtain ⟨hc, hT⟩ := ht
  obtain rfl : c = c' := hc
  have hbefore : Twins T ⟨c, b⟩ ⟨c, b'⟩ := ⟨rfl, hT⟩
  obtain ⟨hopcode, hread⟩ := (Action.read_agree h c.programAddress).run hbefore
  rw [advance_eq, advance_eq]
  -- The fetch may leave different buses behind, so all that is kept of it is that they are related.
  generalize (Action.read c.programAddress).run ⟨c, b⟩ = p at hopcode hread ⊢
  generalize (Action.read c.programAddress).run ⟨c, b'⟩ = p' at hopcode hread ⊢
  obtain ⟨opcode, m₁⟩ := p
  obtain ⟨opcode', m₁'⟩ := p'
  obtain rfl : opcode = opcode' := hopcode
  have htrace := TraceLine.capture_eq h hread.2 c
  obtain ⟨-, hafter⟩ := (Action.execute_agree h (Instruction.ofOpcode opcode)).run hread
  refine ⟨rfl, ?_, hafter⟩
  dsimp only at htrace hafter ⊢
  rw [htrace, hafter.1]

/-- The line is low when its pin says so or a device on the bus does. -/
theorem irqLine_eq (h : Bus.Simulation T) {m : Machine B} {m' : Machine B'}
    (ht : Twins T m m') : m.irqLine = m'.irqLine := by
  rw [irqLine, irqLine, ht.1, h.irqActive ht.2]

/-- A step does the same on both buses. -/
theorem step_agree (h : Bus.Simulation T) {m : Machine B} {m' : Machine B'}
    (ht : Twins T m m') : m.step.Agree T m'.step := by
  have hwake : Twins T { m with core := m.core.wake } { m' with core := m'.core.wake } :=
    ⟨congrArg Core.wake ht.1, ht.2⟩
  simp only [step]
  rw [irqLine_eq h ht, ht.1]
  rw [ht.1] at hwake
  cases m'.core.decide m'.irqLine with
  | idle => exact ⟨rfl, rfl, ht⟩
  | interrupt source => exact account_agree (serve_agree h hwake source)
  | instruction => exact account_agree (advance_agree h hwake)

/-! ## Runs -/

/-- One round of a run. -/
theorem round_agree (h : Bus.Simulation T) {m : Machine B} {m' : Machine B'}
    (ht : Twins T m m') :
    (step (if m.core.panel.paused then takeRequest m else m)).Agree T
      (step (if m'.core.panel.paused then takeRequest m' else m')) := by
  rw [ht.1]
  by_cases hpaused : m'.core.panel.paused = true
  · rw [if_pos hpaused, if_pos hpaused]
    exact step_agree h (takeRequest_agree ht)
  · rw [if_neg hpaused, if_neg hpaused]
    exact step_agree h ht

/-- Runs to a count go through the same events, step by step. -/
theorem runTo_agree (h : Bus.Simulation T) (last : UInt64) {m : Machine B} {m' : Machine B'}
    (ht : Twins T m m') (events : List Event) :
    (runTo last m events).2 = (runTo last m' events).2 ∧
      Twins T (runTo last m events).1 (runTo last m' events).1 := by
  -- The induction is on the rounds of the first run. Each case has to show that the second run
  -- takes the same turn, which the equal cores decide.
  fun_induction runTo last m events generalizing m' with
  | case1 m events hlast hpaused =>
      rw [ht.1] at hlast hpaused
      rw [runTo, if_pos hlast, if_pos hpaused]
      exact ⟨rfl, ht⟩
  | case2 =>
      rename_i m events hlast hpaused start o told hgrown ih
      have ho : o.Agree T (step (if m'.core.panel.paused then takeRequest m' else m')) :=
        round_agree h ht
      -- Both runs go on only if the count of cycles has grown.
      have hgrown' : m'.core.cycles < o.machine.core.cycles := by
        rw [← ht.1]
        exact hgrown
      rw [ht.1] at hlast hpaused
      rw [ho.twins.1] at hgrown'
      rw [runTo.eq_1 last m', if_pos hlast, if_neg hpaused]
      dsimp only
      rw [if_pos hgrown', ← ho.events]
      exact ih ho.twins
  | case3 =>
      rename_i m events hlast hpaused start o told hgrown
      have ho : o.Agree T (step (if m'.core.panel.paused then takeRequest m' else m')) :=
        round_agree h ht
      have hgrown' : ¬ m'.core.cycles < o.machine.core.cycles := by
        rw [← ht.1]
        exact hgrown
      rw [ht.1] at hlast hpaused
      rw [ho.twins.1] at hgrown'
      rw [runTo.eq_1 last m', if_pos hlast, if_neg hpaused]
      dsimp only
      rw [if_neg hgrown', ← ho.events]
      exact ⟨rfl, ho.twins⟩
  | case4 m events hlast =>
      rw [ht.1] at hlast
      rw [runTo, if_neg hlast]
      exact ⟨rfl, ht⟩

/-- A run ends at the same count on both buses, since both start from the same one. -/
theorem run_agree (h : Bus.Simulation T) {m : Machine B} {m' : Machine B'} (ht : Twins T m m')
    (budget : UInt64) : (m.run budget).Agree T (m'.run budget) := by
  obtain ⟨hevents, htwins⟩ := runTo_agree h (target m.core.cycles budget) ht []
  simp only [run]
  rw [← ht.1]
  refine ⟨?_, congrArg List.reverse hevents, htwins⟩
  exact congrArg (fun c : Core => c.cycles - m.core.cycles) htwins.1

/-! ## Commands -/

/-- Pins change the core. Only releasing the reset line goes on to the bus. -/
theorem setPin_agree (h : Bus.Simulation T) {m : Machine B} {m' : Machine B'}
    (ht : Twins T m m') (pin : Pin) (level : Bool) :
    (m.setPin pin level).Agree T (m'.setPin pin level) := by
  cases pin with
  | reset =>
      have ho := onCore_agree ht fun c =>
        { c with pins := { m.core.pins with reset := level } }
      have hr := reset_agree h ho.twins
      simp only [setPin]
      rw [← ht.1]
      by_cases hreleased : (m.core.pins.reset && !level) = true
      · rw [if_pos hreleased, if_pos hreleased]
        exact ⟨rfl, congrArg (Event.resetReleased :: ·) hr.events, hr.twins⟩
      · rw [if_neg hreleased, if_neg hreleased]
        exact ho
  | ready =>
      simp only [setPin]
      rw [← ht.1]
      exact onCore_agree ht _
  | irq =>
      simp only [setPin]
      rw [← ht.1]
      exact onCore_agree ht _
  | nmi =>
      simp only [setPin]
      rw [← ht.1]
      refine ⟨rfl, rfl, ?_, ht.2⟩
      simp only [onCore, ht.1]
  | abort =>
      simp only [setPin]
      rw [← ht.1]
      refine ⟨rfl, rfl, ?_, ht.2⟩
      simp only [onCore, ht.1]

/-- Whatever is done to both machines, it does the same. -/
theorem perform_agree (h : Bus.Simulation T) {m : Machine B} {m' : Machine B'}
    (ht : Twins T m m') (c : Command) : (m.perform c).Agree T (m'.perform c) := by
  cases c with
  | step => exact counted_agree (step_agree h ht)
  | run budget => exact counted_agree (run_agree h ht budget)
  | reset => exact silent_agree (reset_agree h ht)
  | setPin pin level => exact silent_agree (setPin_agree h ht pin level)
  | storeByte a v => exact silent_agree (onBus_agree ht (h.write a v ht.2))
  | storeWord a v => exact silent_agree (onBus_agree ht (h.writeWord a v ht.2))
  | storeLong a v => exact silent_agree (onBus_agree ht (h.writeLong a v ht.2))
  | _ => exact silent_agree (onCore_agree ht _)

end Machine

/-! ## What shows of a machine -/

/-- What shows after something has been done to a machine: the result, the events, the core, and
    the byte at every address. -/
structure Sight where
  result : Option UInt64
  events : List Event
  core : Core
  bytes : Address → UInt8

/-- What an outcome shows. -/
def Outcome.sight (o : Outcome B (Option UInt64)) : Sight where
  result := o.result
  events := o.events
  core := o.machine.core
  bytes a := (Bus.read o.machine.bus a).1

namespace Machine

/-- All that shows while commands are carried out, after each of them. -/
def sights (m : Machine B) : List Command → List Sight
  | [] => []
  | c :: rest => (m.perform c).sight :: (m.perform c).machine.sights rest

/-- All that shows of a machine from its start on. -/
def history (bus : B) (configuration : Configuration) (commands : List Command) : List Sight :=
  let o := silent (start bus configuration)
  o.sight :: o.machine.sights commands

/-- Twins show the same: their cores are equal, and every byte is read alike. -/
theorem sight_eq (h : Bus.Simulation T) {o : Outcome B (Option UInt64)}
    {o' : Outcome B' (Option UInt64)} (ho : o.Agree T o') : o.sight = o'.sight := by
  have hbytes : (fun a => (Bus.read o.machine.bus a).1) =
      fun a => (Bus.read o'.machine.bus a).1 :=
    funext fun a => (h.read a ho.twins.2).1
  rw [Outcome.sight, Outcome.sight, ho.result, ho.events, ho.twins.1, hbytes]

/-- By induction on the commands. What is left over for the next command are twins again. -/
theorem sights_eq (h : Bus.Simulation T) {m : Machine B} {m' : Machine B'} (ht : Twins T m m')
    (commands : List Command) : m.sights commands = m'.sights commands := by
  induction commands generalizing m m' with
  | nil => rfl
  | cons c rest ih =>
      have ho := perform_agree h ht c
      exact congrArg₂ List.cons (sight_eq h ho) (ih ho.twins)

/-- On buses that cannot be told apart, whatever is done to a machine shows the same. -/
theorem history_eq (h : Bus.Simulation T) {b : B} {b' : B'} (hT : T b b')
    (configuration : Configuration) (commands : List Command) :
    history b configuration commands = history b' configuration commands := by
  have hpower : Twins T ⟨.powerOn configuration, b⟩ ⟨.powerOn configuration, b'⟩ := ⟨rfl, hT⟩
  have ho := silent_agree (reset_agree h hpower)
  exact congrArg₂ List.cons (sight_eq h ho) (sights_eq h ho.twins commands)

end Machine

/-! ## A backplane in place of flat memory -/

/-- Regions and RAM chips that lie apart and cover the address space serve any program as flat
    memory with the same bytes does. -/
theorem history_tiled_eq {parts : List Attachment} (hapart : parts.Pairwise Attachment.Apart)
    (hfits : ∀ x ∈ parts, x.Fits) (hwritable : ∀ x ∈ parts, x.writable = true)
    (hcover : ∀ a, ∃ x ∈ parts, x.holds a = true) {memory : Memory}
    (hbytes : ∀ x ∈ parts, ∀ a, x.holds a = true → x.get a = memory.get a) :
    ∃ b : Backplane Chip, Backplane.empty.assemble parts = .ok (b, []) ∧
      ∀ (configuration : Configuration) (commands : List Command),
        Machine.history b configuration commands =
          Machine.history memory configuration commands := by
  obtain ⟨b, hb, htidy, hcells⟩ := Backplane.assemble_tidy hfits hapart
  -- Every address is on some tile, which makes the cells of the backplane those of the memory.
  have hsame : b.cells = memory.cells := by
    funext a
    obtain ⟨x, hx, hxa⟩ := hcover a
    rw [hcells, Attachment.cellsOf_of_mem hapart hx hxa, Attachment.cell, hwritable x hx,
      hbytes x hx a hxa, Memory.cells]
  -- A backplane and a memory are each a map of cells, so one simulation is followed by the converse
  -- of the other.
  have hsim := Backplane.simulation.toSimulation.join Memory.simulation
  refine ⟨b, hb, ?_⟩
  intro configuration commands
  exact Machine.history_eq hsim ⟨_, ⟨htidy, rfl⟩, hsame.symm⟩ configuration commands

/-- A flat RAM, a region and a RAM that is not flat, which together cover the address space. They
    meet within banks 0 and 1, and the region lies on both. -/
def threeTiles : List Attachment :=
  [.chip (.inl (Ram.ofSize 0 0xFFFF true)), .region ⟨0xFFFF, ⟨#[0xA5, 0x5A]⟩, by decide, by decide⟩,
    .chip (.inl (Ram.ofSize 0x10001 0xFEFFFF false))]

/-- Each tile ends where the next one begins. -/
theorem pairwise_apart_threeTiles : threeTiles.Pairwise Attachment.Apart := by
  have hsize := Attachment.size_ofSize 0 0xFFFF true
  refine .cons ?_ (.cons ?_ (.cons ?_ .nil))
  · simp only [List.forall_mem_cons]
    refine ⟨Attachment.apart_of_le ?_, Attachment.apart_of_le ?_, by simp⟩
    · rw [hsize]
      decide
    · rw [hsize]
      decide
  · simp only [List.forall_mem_cons]
    exact ⟨Attachment.apart_of_le (by decide), by simp⟩
  · simp

/-- The region has the two addresses that the others leave over. -/
theorem exists_tile (a : Address) : ∃ x ∈ threeTiles, x.holds a = true := by
  by_cases hbelow : a.value.toNat < 0xFFFF
  · exact ⟨_, .head _, (Attachment.holds_ofSize ..).mpr ⟨Nat.zero_le _, by simpa using hbelow⟩⟩
  · by_cases habove : 0x10001 ≤ a.value.toNat
    · exact ⟨_, .tail _ (.tail _ (.head _)),
        (Attachment.holds_ofSize ..).mpr ⟨habove, a.toNat_value_lt⟩⟩
    · refine ⟨_, .tail _ (.head _), Attachment.holds_iff.mpr ⟨?_, ?_⟩⟩
      · exact Nat.le_of_not_lt hbelow
      · exact Nat.lt_of_not_le habove

/-- Of a memory with two bytes in it, one before and one after the end of bank 0, all others are
    zero. -/
theorem get_load_tile (a : Address) : (Memory.blank.load 0xFFFF [0xA5, 0x5A]).get a =
    if (⟨1, 0⟩ : Address) = a then 0x5A else if (⟨0, 0xFFFF⟩ : Address) = a then 0xA5 else 0 := by
  show ((Memory.blank.set ⟨0, 0xFFFF⟩ 0xA5).set ⟨1, 0⟩ 0x5A).get a = _
  rw [Memory.get_set, Memory.get_set, Memory.get_blank]

/-- The memory has the bytes of every tile. -/
theorem get_tile : ∀ x ∈ threeTiles, ∀ a, x.holds a = true →
    x.get a = (Memory.blank.load 0xFFFF [0xA5, 0x5A]).get a := by
  have hzero : ∀ a : Address, a.value.toNat < 0xFFFF ∨ 0x10001 ≤ a.value.toNat →
      (Memory.blank.load 0xFFFF [0xA5, 0x5A]).get a = 0 := by
    intro a ha
    rw [get_load_tile, if_neg, if_neg]
    · rintro rfl
      exact absurd ha (by decide)
    · rintro rfl
      exact absurd ha (by decide)
  simp only [threeTiles, List.forall_mem_cons]
  refine ⟨?_, ?_, ?_, by simp⟩
  · intro a ha
    obtain ⟨-, hbelow⟩ := (Attachment.holds_ofSize ..).mp ha
    rw [Attachment.get_ofSize, hzero a (.inl (by simpa using hbelow))]
  · intro a ha
    obtain ⟨hle, hlt⟩ := Attachment.holds_iff.mp ha
    have hvalue : a.value.toNat = 0xFFFF ∨ a.value.toNat = 0x10000 := by
      change 0xFFFF ≤ a.value.toNat at hle
      change a.value.toNat < 0x10001 at hlt
      omega
    rcases hvalue with hfirst | hsecond
    · obtain rfl : a = ⟨0, 0xFFFF⟩ := Address.value_inj (UInt32.toNat_inj.mp hfirst)
      rw [get_load_tile]
      rfl
    · obtain rfl : a = ⟨1, 0⟩ := Address.value_inj (UInt32.toNat_inj.mp hsecond)
      rw [get_load_tile]
      rfl
  · intro a ha
    obtain ⟨habove, -⟩ := (Attachment.holds_ofSize ..).mp ha
    rw [Attachment.get_ofSize, hzero a (.inr habove)]

/-- The region and the memory in its place hold two bytes that are not zero. -/
theorem history_three_tiles_eq :
    ∃ b : Backplane Chip, Backplane.empty.assemble threeTiles = .ok (b, []) ∧
      ∀ (configuration : Configuration) (commands : List Command),
        Machine.history b configuration commands =
          Machine.history (Memory.blank.load 0xFFFF [0xA5, 0x5A]) configuration commands := by
  refine history_tiled_eq pairwise_apart_threeTiles ?_ ?_ exists_tile get_tile
  · simp only [threeTiles, List.forall_mem_cons]
    exact ⟨Attachment.fits_ofSize (by decide), trivial, Attachment.fits_ofSize (by decide), by simp⟩
  · simp only [threeTiles, List.forall_mem_cons]
    exact ⟨rfl, rfl, rfl, by simp⟩

end W65C816
