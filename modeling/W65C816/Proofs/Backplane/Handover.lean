import W65C816.Proofs.Backplane.Assembly
import W65C816.Proofs.Backplane.Regions

/-!
# A flat RAM that is attached

A flat RAM gives its bytes away when it is attached, and a region can be made of them only if they
end inside the address space. A chip that reaches beyond it has then given them away for nothing.

* `Ram.KeepsContents` says that nothing is lost: on an empty backplane the chip is as good as the
  same chip that is not flat.
* `Backplane.attach_fitting` is the chip that fits, and `Backplane.attach_flat_misfit` the one that
  does not: it leaves an emptied chip behind, which answers nowhere.
* `flat_ram_keeps_contents_iff` puts both together.
-/

namespace W65C816

open Attachment

namespace Ram

/-- The same chip, which keeps its contents to itself. -/
def plain (r : Ram) : Ram :=
  { r with flat := false }

/-- The backplane with this chip and nothing else. -/
def alone (r : Ram) : Backplane Chip :=
  (Backplane.empty.attach (.inl r : Chip)).1

/-- Attached to an empty backplane, the chip loses nothing. -/
structure KeepsContents (r : Ram) : Prop where
  /-- The addresses of the chip show its bytes. -/
  shows : ∀ a : Address, r.base.toNat ≤ a.value.toNat → a.value.toNat < r.base.toNat + r.size →
    (Bus.read r.alone a).1 = Bytes.get r.bytes (a.value.toNat - r.base.toNat) ∧
      Bus.peek r.alone a = Bytes.get r.bytes (a.value.toNat - r.base.toNat)
  /-- They can be written. -/
  accepts : ∀ a : Address, r.base.toNat ≤ a.value.toNat → a.value.toNat < r.base.toNat + r.size →
    ∀ v, (Bus.read (Bus.write r.alone a v) a).1 = v
  /-- No requests tell whether the chip is flat. -/
  indistinct : ∀ qs, (serveAll r.alone qs).1 = (serveAll r.plain.alone qs).1
  /-- A chip whose bytes do not make a region keeps them. -/
  refused : ∀ e, Region.ofBytes? r.base r.bytes = .error e → (Device.handOver r).device = r

/-- The bytes of the chip end inside the address space, or there are none. -/
def Contained (r : Ram) : Prop :=
  r.size = 0 ∨ r.base.toNat + r.size ≤ Address.spaceSize

instance (r : Ram) : Decidable r.Contained :=
  inferInstanceAs (Decidable (_ ∨ _))

end Ram

/-- Bytes that run past the address space are refused as a range that does so. -/
theorem Region.ofBytes?_eq_error {start : UInt32} {bytes : ByteArray} (hn : 0 < bytes.size)
    (h : Address.spaceSize < start.toNat + bytes.size) :
    ∃ last, ofBytes? start bytes = .error (.invalidRegion start last) := by
  refine ⟨UInt32.ofNat (min (start.toNat + bytes.size - 1) 0xFFFFFFFF), ?_⟩
  have hlast : Address.spaceSize ≤
      (UInt32.ofNat (min (start.toNat + bytes.size - 1) 0xFFFFFFFF)).toNat := by
    rw [Address.spaceSize] at h ⊢
    rw [UInt32.toNat_ofNat']
    omega
  rw [ofBytes?, if_neg (Nat.ne_of_gt hn), ofRange?, dif_pos (Or.inr hlast)]

namespace Backplane

/-! ## Chips that fit -/

/-- Backplanes that are tidy and show the same cells answer all requests alike. -/
theorem replies_eq_of_cells {b b' : Backplane Chip} (hb : b.Tidy) (hb' : b'.Tidy)
    (hcells : b.cells = b'.cells) (qs : List Request) :
    (serveAll b qs).1 = (serveAll b' qs).1 :=
  (simulation.serveAll ⟨hb, hcells⟩ qs).1.trans (simulation.serveAll ⟨hb', rfl⟩ qs).1.symm

/-- A chip that fits is attached without a notice and shows its cells. -/
theorem attach_fitting {c : Chip} (hfits : (chip c).Fits) :
    ∃ b : Backplane Chip, empty.attach c = (b, []) ∧ b.Tidy ∧ b.cells = cellsOf [chip c] := by
  have hall : ∀ x ∈ [chip c], x.Fits := by simpa using hfits
  obtain ⟨b, hb, htidy, hcells⟩ := assemble_tidy hall (List.pairwise_singleton _ _)
  refine ⟨b, ?_, htidy, hcells⟩
  have hattach : (Except.ok ((empty.attach c).1, (empty.attach c).2 ++ []) :
      Except BusError (Backplane Chip × List Notice)) = .ok (b, []) := hb
  rw [List.append_nil] at hattach
  exact Except.ok.inj hattach

/-! ## Chips that do not -/

/-- A flat chip that runs past the address space is emptied, and no region comes of it. -/
theorem attach_flat_misfit {r : Ram} (hflat : r.flat = true) (h : ¬ r.Contained) :
    ∃ last, (empty : Backplane Chip).attach (.inl r) =
      (⟨[], [.inl (emptied r)]⟩, [.notFlattened r.base (.invalidRegion r.base last)]) := by
  obtain ⟨hsize, hpast⟩ := not_or.mp h
  obtain ⟨last, hlast⟩ := Region.ofBytes?_eq_error (Nat.pos_of_ne_zero hsize)
    (Nat.lt_of_not_le hpast)
  have hgives : ¬ (!r.flat || r.size == 0) = true := by simpa [hflat] using hsize
  refine ⟨last, ?_⟩
  rw [attach, handOver_ram, if_neg hgives, hlast]
  rfl

theorem tidy_singleton (c : Chip) : Tidy ⟨[], [c]⟩ :=
  List.pairwise_singleton _ _

theorem tidy_empty : (empty : Backplane Chip).Tidy :=
  List.Pairwise.nil

/-- A chip without bytes shows as much as no chip. -/
theorem cells_emptied (r : Ram) :
    cells ⟨[], [.inl (emptied r)]⟩ = (empty : Backplane Chip).cells := by
  funext a
  have hnone : server ⟨[], [.inl (emptied r)]⟩ a = none :=
    List.find?_cons_of_neg (p := fun x : Attachment => x.holds a) (not_holds_emptied r a)
  rw [cells, hnone]
  rfl

end Backplane

namespace Ram

variable {r : Ram}

/-- A chip that is not flat, or that is contained, shows its cells on an empty backplane. -/
theorem alone_tidy (hfits : (chip (.inl r)).Fits) :
    r.alone.Tidy ∧ r.alone.cells = cellsOf [chip (.inl r)] := by
  obtain ⟨b, hb, htidy, hcells⟩ := Backplane.attach_fitting hfits
  have halone : r.alone = b := congrArg Prod.fst hb
  rw [halone]
  exact ⟨htidy, hcells⟩

/-- A chip shows the same cells whether it is flat or not. -/
theorem cellsOf_plain (r : Ram) : cellsOf [chip (.inl r.plain)] = cellsOf [chip (.inl r)] := by
  refine cellsOf_eq_of_shows (List.pairwise_singleton _ _) ?_
  intro a c
  simp only [Shows, List.mem_singleton, exists_eq_left]
  exact Iff.rfl

/-- A chip that keeps its contents to itself always fits, as it need not be in the address space. -/
theorem plain_alone_tidy (r : Ram) :
    r.plain.alone.Tidy ∧ r.plain.alone.cells = cellsOf [chip (.inl r)] := by
  rw [← cellsOf_plain]
  exact alone_tidy (r := r.plain) nofun

theorem Contained.fits (h : r.Contained) : (chip (.inl r)).Fits := by
  intro _ hpos
  rcases h with hzero | hle
  · omega
  · exact hle

/-- The cell of a chip on a backplane that shows just its cells. -/
theorem cells_of_holds {b : Backplane Chip} (hb : b.cells = cellsOf [chip (.inl r)]) {a : Address}
    (hlow : r.base.toNat ≤ a.value.toNat) (hhigh : a.value.toNat < r.base.toNat + r.size) :
    b.cells a = ⟨Bytes.get r.bytes (a.value.toNat - r.base.toNat), true⟩ := by
  have hholds : (chip (.inl r)).holds a = true := holds_iff.mpr ⟨hlow, hhigh⟩
  rw [hb, cellsOf_of_mem (List.pairwise_singleton _ _) List.mem_cons_self hholds]
  rfl

/-- Nothing is lost of a chip that is contained. -/
theorem Contained.keepsContents (h : r.Contained) : r.KeepsContents := by
  obtain ⟨htidy, hcells⟩ := alone_tidy h.fits
  obtain ⟨htidy', hcells'⟩ := r.plain_alone_tidy
  constructor
  · intro a hlow hhigh
    rw [Backplane.read_eq, Backplane.peek_eq, cells_of_holds hcells hlow hhigh]
    exact ⟨rfl, rfl⟩
  · intro a hlow hhigh v
    rw [Backplane.read_eq, Backplane.cells_write, CellMap.overwrite_singleton, if_pos rfl,
      cells_of_holds hcells hlow hhigh]
    rfl
  · exact Backplane.replies_eq_of_cells htidy htidy' (hcells.trans hcells'.symm)
  · intro e he
    by_cases hsize : r.size = 0
    · have hkeeps : (!r.flat || r.size == 0) = true := by simp [hsize]
      simp only [Device.handOver]
      rw [if_pos hkeeps]
    · have hfits := h.resolve_left hsize
      obtain ⟨s, hs, -⟩ := Region.ofBytes?_eq_ok (Nat.pos_of_ne_zero hsize) hfits
      rw [hs] at he
      exact nomatch he

/-- A flat chip that runs past the address space is no longer what it was. -/
theorem not_keepsContents (hflat : r.flat = true) (h : ¬ r.Contained) : ¬ r.KeepsContents := by
  intro hkeeps
  obtain ⟨hsize, hpast⟩ := not_or.mp h
  obtain ⟨last, hlast⟩ := Region.ofBytes?_eq_error (Nat.pos_of_ne_zero hsize)
    (Nat.lt_of_not_le hpast)
  have hgives : ¬ (!r.flat || r.size == 0) = true := by simpa [hflat] using hsize
  have hsame := hkeeps.refused _ hlast
  simp only [Device.handOver] at hsame
  rw [if_neg hgives, hlast] at hsame
  have hempty : ByteArray.empty = r.bytes := congrArg Ram.bytes hsame
  exact hsize (congrArg ByteArray.size hempty).symm

end Ram

/-- What becomes of a flat RAM that is attached to an empty backplane.

    * Its contents are kept exactly when they end inside the address space, or there are none.
    * To requests of any kind, in any number, the backplane is one with the same chip that is not
      flat when they are kept, and one with nothing attached when they are not. Only in that case
      there is a notice. -/
theorem flat_ram_keeps_contents_iff (base : UInt32) (bytes : ByteArray) :
    let r : Ram := ⟨base, bytes, true⟩
    let kept := bytes.size = 0 ∨ base.toNat + bytes.size ≤ 0x1000000
    (r.KeepsContents ↔ kept) ∧
      (∀ qs, (serveAll r.alone qs).1 =
        (serveAll (if kept then r.plain.alone else Backplane.empty) qs).1) ∧
      ((Backplane.empty.attach (.inl r : Chip)).2 = [] ↔ kept) := by
  intro r kept
  -- The chip either becomes a region with all its bytes, or is emptied without one. Nothing comes
  -- between.
  by_cases h : r.Contained
  · have hkeeps := h.keepsContents
    obtain ⟨b, hb, -⟩ := Backplane.attach_fitting h.fits
    have hnotices : (Backplane.empty.attach (.inl r : Chip)).2 = [] := congrArg Prod.snd hb
    refine ⟨iff_of_true hkeeps h, ?_, iff_of_true hnotices h⟩
    intro qs
    rw [if_pos (show kept from h)]
    exact hkeeps.indistinct qs
  · obtain ⟨last, hattach⟩ := Backplane.attach_flat_misfit (r := r) rfl h
    -- All that is left is a chip without bytes, which answers as no chip does.
    have halone : r.alone = ⟨[], [.inl (emptied r)]⟩ := congrArg Prod.fst hattach
    have hnotices : (Backplane.empty.attach (.inl r : Chip)).2 ≠ [] := by
      rw [hattach]
      exact List.cons_ne_nil _ _
    refine ⟨iff_of_false (Ram.not_keepsContents rfl h) h, ?_, iff_of_false hnotices h⟩
    intro qs
    rw [if_neg (show ¬ kept from h), halone]
    exact Backplane.replies_eq_of_cells (Backplane.tidy_singleton _) Backplane.tidy_empty
      (Backplane.cells_emptied r) qs

/-- Two bytes of a flat RAM at the last address are lost: the second lies beyond it, and the first
    is no longer served. The same chip that is not flat serves it. -/
theorem contents_lost_at_top :
    let r : Ram := ⟨0xFFFFFF, ⟨#[0x42, 0x43]⟩, true⟩
    (Bus.read r.plain.alone ⟨0xFF, 0xFFFF⟩).1 = 0x42 ∧
      (Bus.read r.alone ⟨0xFF, 0xFFFF⟩).1 = 0 ∧ ¬ r.KeepsContents :=
  ⟨rfl, rfl, Ram.not_keepsContents rfl (by decide)⟩

end W65C816
