import W65C816.Proofs.Backplane.Tidy

/-!
# Setting up a backplane

A backplane is set up by adding regions and attaching chips one after the other. A chip that is a
flat RAM turns into a region on the way, so the attachments in the end are not the parts that were
added, but their `pieces`.

* `Backplane.assemble` adds parts in order, and keeps errors and notices.
* `pieces_shows`: the pieces of a part show the cells of the part.
* `Backplane.assemble_eq`: parts that lie apart are all accepted, and give a tidy backplane with
  their cells.
* `Refines` says that a bus is a map of cells, through any number of requests.
  `parts_and_memory_refine_cells` says it of backplanes, in whatever order their parts are added,
  and of flat memory.
-/

namespace W65C816

namespace Attachment

/-- A flat RAM lies in the address space. There is nothing to ask of other parts. -/
def Fits : Attachment → Prop
  | chip (.inl r) => r.flat = true → 0 < r.size → r.base.toNat + r.size ≤ Address.spaceSize
  | chip (.inr _) => True
  | region _ => True

theorem fits_ofSize {base : UInt32} {size : Nat} {flat : Bool}
    (h : base.toNat + size ≤ Address.spaceSize) :
    (chip (.inl (Ram.ofSize base size flat))).Fits := by
  intro _ _
  show base.toNat + (chip (.inl (Ram.ofSize base size flat))).bytes.size ≤ _
  rw [size_ofSize]
  exact h

/-- What is attached when a part has been added. -/
def pieces : Attachment → List Attachment
  | region r => [region r]
  | chip c => (Device.handOver c).regions.map region ++ [chip (Device.handOver c).device]

/-- A flat RAM with its contents taken away. -/
def emptied (r : Ram) : Ram :=
  { r with bytes := ByteArray.empty }

/-- A chip without bytes has no address. -/
theorem not_holds_emptied (r : Ram) (a : Address) : ¬ (chip (.inl (emptied r))).holds a = true := by
  intro h
  obtain ⟨hb, hlt⟩ := holds_iff.mp h
  have hsize : (chip (.inl (emptied r))).bytes.size = 0 := rfl
  omega

/-- A RAM keeps its bytes unless it is flat and has any. Then it loses them, also when they do not
    fit as a region. -/
theorem handOver_ram (r : Ram) :
    Device.handOver (.inl r : Chip) =
      if !r.flat || r.size == 0 then
        ⟨[], .inl r, []⟩
      else
        match Region.ofBytes? r.base r.bytes with
        | .ok s => ⟨[s], .inl (emptied r), []⟩
        | .error e => ⟨[], .inl (emptied r), [.notFlattened r.base e]⟩ := by
  show (let h := Device.handOver r; (⟨h.regions, .inl h.device, h.notices⟩ : Handover Chip)) = _
  simp only [Device.handOver]
  by_cases hkeep : (!r.flat || r.size == 0) = true
  · rw [if_pos hkeep, if_pos hkeep]
  · rw [if_neg hkeep, if_neg hkeep]
    cases Region.ofBytes? r.base r.bytes with
    | ok s => rfl
    | error e => rfl

/-- What a chip hands over: nothing, or all its bytes as a region if it is a flat RAM. -/
theorem handOver_eq {c : Chip} (hfits : (chip c).Fits) :
    Device.handOver c = ⟨[], c, []⟩ ∨
      ∃ (r : Ram) (s : Region), c = .inl r ∧ s.start = r.base ∧ s.bytes = r.bytes ∧
        Device.handOver c = ⟨[s], .inl (emptied r), []⟩ := by
  rcases c with r | r
  · by_cases hkeep : (!r.flat || r.size == 0) = true
    · refine Or.inl ?_
      rw [handOver_ram, if_pos hkeep]
    · refine Or.inr ?_
      obtain ⟨hflat, hsize⟩ : r.flat = true ∧ 0 < r.size := by
        simp only [Bool.or_eq_true, Bool.not_eq_true', beq_iff_eq, not_or] at hkeep
        exact ⟨by simpa using hkeep.1, Nat.pos_of_ne_zero hkeep.2⟩
      -- A flat RAM that fits becomes a region, so the case where its bytes are lost does not arise.
      obtain ⟨s, hs, hstart, hbytes⟩ := Region.ofBytes?_eq_ok hsize (hfits hflat hsize)
      refine ⟨r, s, rfl, hstart, hbytes, ?_⟩
      rw [handOver_ram, if_neg hkeep, hs]
  · exact Or.inl rfl

/-- The pieces of a part show the cells of the part. -/
theorem pieces_shows {x : Attachment} (hfits : x.Fits) (a : Address) (c : Cell) :
    Shows x.pieces a c ↔ x.holds a = true ∧ x.cell a = c := by
  have shows_single : Shows [x] a c ↔ x.holds a = true ∧ x.cell a = c := by
    constructor
    · rintro ⟨y, hy, hya⟩
      rw [List.mem_singleton.mp hy] at hya
      exact hya
    · intro h
      exact ⟨x, List.mem_singleton.mpr rfl, h⟩
  rcases x with r | d
  · exact shows_single
  · rcases handOver_eq hfits with hkeep | ⟨r, s, rfl, hstart, hbytes, hflat⟩
    · rw [pieces, hkeep]
      exact shows_single
    · have hholds : ∀ a, (region s).holds a = (chip (.inl r)).holds a := by
        intro a
        rw [holds, holds, base, base, bytes, bytes, hstart, hbytes]
      have hcell : ∀ a, (region s).cell a = (chip (.inl r)).cell a := by
        intro a
        rw [cell, cell, Attachment.get, Attachment.get, position, position, base, base, bytes,
          bytes, hstart, hbytes]
        rfl
      rw [pieces, hflat]
      -- What is handed over shows the bytes, and the emptied RAM shows nothing.
      constructor
      · rintro ⟨y, hy, hya, hc⟩
        rcases List.mem_cons.mp hy with rfl | hy
        · exact ⟨(hholds a).symm.trans hya, (hcell a).symm.trans hc⟩
        · rw [List.mem_singleton.mp hy] at hya
          exact absurd hya (not_holds_emptied r a)
      · rintro ⟨hra, hc⟩
        exact ⟨region s, List.mem_cons_self, (hholds a).trans hra, (hcell a).trans hc⟩

/-- A piece has no address that its part does not have. -/
theorem holds_of_mem_pieces {x y : Attachment} (hfits : x.Fits) (hy : y ∈ x.pieces)
    {a : Address} (hya : y.holds a = true) : x.holds a = true :=
  ((pieces_shows hfits a (y.cell a)).mp ⟨y, hy, hya, rfl⟩).1

/-- The pieces of one part do not get in each other's way, since the RAM that is left is empty. -/
theorem pieces_apart {x : Attachment} (hfits : x.Fits) : x.pieces.Pairwise Apart := by
  rcases x with r | d
  · exact List.pairwise_singleton _ _
  · rcases handOver_eq hfits with hkeep | ⟨r, s, rfl, -, -, hflat⟩
    · rw [pieces, hkeep]
      exact List.pairwise_singleton _ _
    · rw [pieces, hflat]
      refine List.pairwise_pair.mpr ?_
      rintro a ⟨-, ha⟩
      exact not_holds_emptied r a ha

/-- Parts that lie apart have pieces that lie apart. -/
theorem flatMap_pieces_apart {parts : List Attachment} (hfits : ∀ x ∈ parts, x.Fits)
    (hapart : parts.Pairwise Apart) : (parts.flatMap pieces).Pairwise Apart := by
  rw [List.pairwise_flatMap]
  refine ⟨fun x hx => pieces_apart (hfits x hx), hapart.imp_of_mem ?_⟩
  intro x y hx hy hxy u hu v hv
  rintro a ⟨hua, hva⟩
  exact hxy a ⟨holds_of_mem_pieces (hfits x hx) hu hua, holds_of_mem_pieces (hfits y hy) hv hva⟩

/-- Taking parts to pieces does not change what is shown. -/
theorem flatMap_pieces_shows {parts : List Attachment} (hfits : ∀ x ∈ parts, x.Fits)
    (a : Address) (c : Cell) : Shows (parts.flatMap pieces) a c ↔ Shows parts a c := by
  constructor
  · rintro ⟨y, hy, hya⟩
    obtain ⟨x, hx, hxy⟩ := List.mem_flatMap.mp hy
    exact ⟨x, hx, (pieces_shows (hfits x hx) a c).mp ⟨y, hxy, hya⟩⟩
  · rintro ⟨x, hx, hxa⟩
    obtain ⟨y, hy, hya⟩ := (pieces_shows (hfits x hx) a c).mpr hxa
    exact ⟨y, List.mem_flatMap.mpr ⟨x, hx, hy⟩, hya⟩

end Attachment

namespace Backplane

open Attachment

/-- Adds parts one after the other. -/
def assemble (b : Backplane Chip) : List Attachment → Except BusError (Backplane Chip × List Notice)
  | [] => .ok (b, [])
  | region r :: parts =>
      match b.addRegion r with
      | .error e => .error e
      | .ok b => b.assemble parts
  | chip c :: parts =>
      let (b, notices) := b.attach c
      match b.assemble parts with
      | .error e => .error e
      | .ok (b, more) => .ok (b, notices ++ more)

/-! ## Adding one part -/

/-- A region that lies apart from those that are there is accepted. -/
theorem addRegion_eq {b : Backplane Chip} {r : Region}
    (h : ∀ s ∈ b.regions, (region s).Apart (region r)) :
    b.addRegion r = .ok { b with regions := b.regions ++ [r] } := by
  have hnone : b.regions.find? (·.overlaps r) = none := by
    rw [List.find?_eq_none]
    intro s hs hoverlap
    obtain ⟨a, hsa, hra⟩ := Region.exists_of_overlaps hoverlap
    exact h s hs a ⟨(holds_region s a).trans hsa, (holds_region r a).trans hra⟩
  rw [addRegion, hnone]

/-- The next region lies apart from those before it if all that is ever attached does. -/
theorem region_apart_of_pairwise {b : Backplane Chip} {r : Region} {l : List Attachment}
    (h : (b.attachments ++ region r :: l).Pairwise Apart) :
    ∀ s ∈ b.regions, (region s).Apart (region r) := by
  intro s hs
  refine (List.pairwise_append.mp h).2.2 (region s) ?_ (region r) List.mem_cons_self
  exact List.mem_append_left _ (List.mem_map_of_mem hs)

/-- A region that is added goes before the chips, so the order of attachments is not that of adding.
    -/
theorem attachments_addRegion_perm (b : Backplane Chip) (r : Region) :
    (attachments { b with regions := b.regions ++ [r] }).Perm (b.attachments ++ [region r]) := by
  rw [attachments, attachments, List.map_append, List.append_assoc, List.append_assoc]
  exact List.perm_append_comm.append_left _

theorem attachments_addDevice (b : Backplane Chip) (c : Chip) :
    attachments { b with devices := b.devices ++ [c] } = b.attachments ++ [chip c] := by
  rw [attachments, attachments, List.map_append, List.append_assoc]
  rfl

/-- A chip that lies apart from what is there is attached, and there is nothing to report. -/
theorem attach_eq {b : Backplane Chip} {c : Chip} {l : List Attachment} (hfits : (chip c).Fits)
    (h : (b.attachments ++ (pieces (chip c) ++ l)).Pairwise Apart) :
    ∃ b', b.attach c = (b', []) ∧
      b'.attachments.Perm (b.attachments ++ pieces (chip c)) := by
  rcases handOver_eq hfits with hkeep | ⟨r, s, rfl, -, -, hflat⟩
  · refine ⟨{ b with devices := b.devices ++ [c] }, ?_, ?_⟩
    · rw [attach, hkeep]
      rfl
    · rw [pieces, hkeep, attachments_addDevice]
      exact List.Perm.refl _
  · rw [pieces, hflat] at h ⊢
    have hadd := addRegion_eq (region_apart_of_pairwise h)
    -- The backplane after the region has been added, which the chip is added to.
    generalize hb₁ : ({ b with regions := b.regions ++ [s] } : Backplane Chip) = b₁ at hadd
    refine ⟨{ b₁ with devices := b₁.devices ++ [.inl (emptied r)] }, ?_, ?_⟩
    · rw [attach, hflat]
      dsimp only
      rw [addRegions, hadd]
      rfl
    · have hperm := attachments_addRegion_perm b s
      rw [hb₁] at hperm
      rw [attachments_addDevice]
      refine (hperm.append_right _).trans ?_
      rw [List.append_assoc]
      exact List.Perm.refl _

/-! ## Adding all parts -/

/-- Parts whose pieces lie apart are all accepted without a notice, and their pieces are what is
    attached in the end. -/
theorem assemble_eq {b : Backplane Chip} {parts : List Attachment}
    (hfits : ∀ x ∈ parts, x.Fits)
    (h : (b.attachments ++ parts.flatMap pieces).Pairwise Apart) :
    ∃ b', b.assemble parts = .ok (b', []) ∧
      b'.attachments.Perm (b.attachments ++ parts.flatMap pieces) := by
  -- By induction on the parts. What stays true is that everything attached so far and everything
  -- still to come lie apart.
  induction parts generalizing b with
  | nil =>
      refine ⟨b, rfl, ?_⟩
      rw [List.flatMap_nil, List.append_nil]
  | cons x parts ih =>
      rw [List.flatMap_cons] at h ⊢
      obtain ⟨b₁, hstep, hperm⟩ : ∃ b₁ : Backplane Chip,
          b.assemble (x :: parts) = b₁.assemble parts ∧
            b₁.attachments.Perm (b.attachments ++ x.pieces) := by
        rcases x with r | c
        · refine ⟨{ b with regions := b.regions ++ [r] }, ?_, attachments_addRegion_perm b r⟩
          rw [assemble, addRegion_eq (region_apart_of_pairwise h)]
        · obtain ⟨b₁, hattach, hperm⟩ := attach_eq (hfits (chip c) List.mem_cons_self) h
          refine ⟨b₁, ?_, hperm⟩
          rw [assemble, hattach]
          dsimp only
          cases b₁.assemble parts with
          | error e => rfl
          | ok p => rfl
      have hall := hperm.append_right (parts.flatMap pieces)
      rw [List.append_assoc] at hall
      obtain ⟨b', hrest, hperm'⟩ := ih (fun y hy => hfits y (List.mem_cons_of_mem _ hy))
        (h.perm hall.symm Apart.symm)
      -- The pieces of the first part have moved from those to come to those that are attached.
      exact ⟨b', hstep.trans hrest, hperm'.trans hall⟩

/-- Parts that lie apart make a tidy backplane that shows their cells. -/
theorem assemble_tidy {parts : List Attachment} (hfits : ∀ x ∈ parts, x.Fits)
    (hapart : parts.Pairwise Apart) :
    ∃ b : Backplane Chip, empty.assemble parts = .ok (b, []) ∧ b.Tidy ∧
      b.cells = cellsOf parts := by
  obtain ⟨b, hb, hperm⟩ := assemble_eq (b := empty) hfits (flatMap_pieces_apart hfits hapart)
  refine ⟨b, hb, (flatMap_pieces_apart hfits hapart).perm hperm.symm Apart.symm, ?_⟩
  refine cellsOf_eq_of_shows hapart ?_
  intro a c
  exact (shows_perm hperm a c).trans (flatMap_pieces_shows hfits a c)

end Backplane

/-! ## Buses that are maps of cells -/

/-- The bus `b` behaves as the map of cells `m` does: any requests get the same replies and leave
    the same cells behind, and a request that only asks leaves the bus as it was. -/
def Refines {B : Type} [Bus B] [Blocks B] (cells : B → CellMap) (b : B) (m : CellMap) : Prop :=
  ∀ qs : List Request,
    ((serveAll b qs).1, cells (serveAll b qs).2) = serveAll m qs ∧
      ∀ q : Request, q.isReading = true →
        (serve (serveAll b qs).2 q).2 = (serveAll b qs).2

/-- What a simulation by a map of cells comes to. -/
theorem Blocks.Simulation.refines {B : Type} [Bus B] [Blocks B] {T : B → CellMap → Prop}
    {cells : B → CellMap} (h : Blocks.Simulation T) (hcells : ∀ {b m}, T b m → cells b = m)
    (hread : ∀ (b : B) (q : Request), q.isReading = true → (W65C816.serve b q).2 = b)
    {b : B} {m : CellMap} (hT : T b m) : Refines cells b m := by
  intro qs
  obtain ⟨hreplies, hT'⟩ := h.serveAll hT qs
  exact ⟨Prod.ext hreplies (hcells hT'), hread _⟩

theorem Memory.snd_serve (m : Memory) (q : Request) (hq : q.isReading = true) :
    (serve m q).2 = m := by
  cases q with
  | readByte a => rfl
  | peekByte a => rfl
  | readWord a => rfl
  | readLong a => rfl
  | readPointer a => rfl
  | readBytes a n => exact congrArg Prod.snd (Memory.readEach_eq m a n)
  | writeByte a v => cases hq
  | writeWord a v => cases hq
  | writeLong a v => cases hq
  | writeBytes a l => cases hq
  | load start l => cases hq

/-- Parts that lie apart can be added in any order, and the backplane is then the map of their
    cells. Flat memory is the map of its cells, all of which are writable. -/
theorem parts_and_memory_refine_cells :
    (∀ parts parts' : List Attachment, parts.Pairwise Attachment.Apart →
      (∀ x ∈ parts, x.Fits) → parts.Perm parts' →
        ∃ b : Backplane Chip, Backplane.empty.assemble parts' = .ok (b, []) ∧
          Refines Backplane.cells b (Attachment.cellsOf parts)) ∧
      ∀ m : Memory, Refines Memory.cells m m.cells := by
  constructor
  · intro parts parts' hapart hfits hperm
    have hapart' := hapart.perm hperm Attachment.Apart.symm
    have hfits' : ∀ x ∈ parts', x.Fits := fun x hx => hfits x (hperm.mem_iff.mpr hx)
    obtain ⟨b, hb, htidy, hcells⟩ := Backplane.assemble_tidy hfits' hapart'
    have horder : Attachment.cellsOf parts' = Attachment.cellsOf parts :=
      Attachment.cellsOf_eq_of_shows hapart fun a c => (Attachment.shows_perm hperm a c).symm
    refine ⟨b, hb, Backplane.simulation.refines (fun h => h.2) ?_ ⟨htidy, hcells.trans horder⟩⟩
    intro b q hq
    exact b.snd_serve hq
  · intro m
    exact Memory.blocksSimulation.refines id Memory.snd_serve rfl

/-- A region, a flat RAM and a ROM that lie side by side. -/
def sideBySide : List Attachment :=
  [.region ⟨0x1FFE, ⟨#[0xAA, 0xBB]⟩, by decide, by decide⟩,
    .chip (.inl (Ram.ofSize 0x2000 2 true)), .chip (.inr ⟨0x2002, ⟨#[0xCC, 0xDD]⟩⟩)]

/-- They can be added from the last to the first. -/
theorem sideBySide_refines :
    ∃ b : Backplane Chip, Backplane.empty.assemble sideBySide.reverse = .ok (b, []) ∧
      Refines Backplane.cells b (Attachment.cellsOf sideBySide) := by
  refine parts_and_memory_refine_cells.1 sideBySide _ ?_ ?_ (List.reverse_perm _).symm
  · refine .cons ?_ (.cons ?_ (.cons ?_ .nil))
    · simp only [List.forall_mem_cons]
      exact ⟨Attachment.apart_of_le (by decide), Attachment.apart_of_le (by decide), by simp⟩
    · simp only [List.forall_mem_cons]
      exact ⟨Attachment.apart_of_le (by decide), by simp⟩
    · simp
  · simp only [sideBySide, List.forall_mem_cons]
    exact ⟨trivial, fun _ _ => by decide, trivial, by simp⟩

end W65C816
