import W65C816.Proofs.Backplane.Attachments
import W65C816.Proofs.Requests

/-!
# Windows and single bytes

A longer access to a backplane asks who answers at the first address of a chunk and takes the rest
from the window of that attachment. Asking at every address may give a different answer, because
another attachment can have precedence further on. This module finds out when it does not.

* `Backplane.ReadsThrough` and `Backplane.WritesThrough` say of the windows for reading and for
  writing that they show what the addresses under them show.
* `Backplane.readBytes_eq_readEach_iff` and `Backplane.writeBytes_eq_writeEach_iff`: these are
  exactly the backplanes on which blocks can be read and written as if byte by byte.
* `Backplane.bytewise_iff` says it of all requests at once.
-/

namespace W65C816

namespace Backplane

theorem roomAbove_pos (a : Address) : 0 < roomAbove a :=
  Nat.sub_pos_of_lt a.toNat_value_lt

/-- An address counts up as long as there is room above it. -/
theorem toNat_value_onward_of_room {a : Address} {k : Nat} (h : k < roomAbove a) :
    (a.onward (UInt32.ofNat k)).value.toNat = a.value.toNat + k := by
  rw [roomAbove] at h
  exact Address.toNat_value_onward_of_lt (by omega)

theorem le_onward {a : Address} {k : Nat} (h : k < roomAbove a) :
    a ≤ a.onward (UInt32.ofNat k) := by
  refine UInt32.le_iff_toNat_le.mpr ?_
  rw [toNat_value_onward_of_room h]
  exact Nat.le_add_right _ _

end Backplane

namespace Attachment

/-- A block has the addresses that follow one of its own, as far as it reaches. -/
theorem holds_onward {x : Attachment} {a : Address} (h : x.holds a = true) {k : Nat}
    (hk : k < x.room a) (hw : k < Backplane.roomAbove a) :
    x.holds (a.onward (UInt32.ofNat k)) = true := by
  obtain ⟨hb, hlt⟩ := holds_iff.mp h
  rw [room, position] at hk
  rw [holds_iff, Backplane.toNat_value_onward_of_room hw]
  omega

/-- Two bytes can be written so that the second makes a difference. -/
theorem exists_put_pair_ne {x : Attachment} {a : Address} (h : x.holds a = true)
    (hnext : a.value.toNat + 1 < Address.spaceSize) (h' : x.holds (a.onward 1) = true)
    (hw : x.writable = true) : ∃ v, x.put a [0, v] ≠ x.put a [0] := by
  have hself : ¬ a = a.onward 1 := by
    intro he
    have hn : a.value.toNat = (a.onward 1).value.toNat := congrArg (fun a => a.value.toNat) he
    rw [Address.toNat_value_onward_one hnext] at hn
    omega
  have hfirst : (x.put a [0]).cell (a.onward 1) = x.cell (a.onward 1) := by
    rw [cell_put h h' 0, if_neg hself]
  refine ⟨x.get (a.onward 1) + 1, ?_⟩
  intro he
  have hcell := congrArg (fun x => (x.cell (a.onward 1)).value) he
  rw [put_cons h hnext, cell_put (by rw [holds_put]; exact h') (by rw [holds_put]; exact h'),
    if_pos rfl, hfirst, Cell.write, if_pos (by exact hw)] at hcell
  have hvalue : x.get (a.onward 1) + 1 = x.get (a.onward 1) := hcell
  have hnat := congrArg UInt8.toNat hvalue
  rw [UInt8.toNat_add] at hnat
  have hlt := (x.get (a.onward 1)).toNat_lt
  have hone : (1 : UInt8).toNat = 1 := rfl
  omega

/-- The way from one address of a block to a later one. -/
theorem onward_sub {x : Attachment} {a a' : Address} (h' : x.holds a' = true) (hle : a ≤ a') :
    a'.value.toNat - a.value.toNat < Backplane.roomAbove a ∧
      a.onward (UInt32.ofNat (a'.value.toNat - a.value.toNat)) = a' ∧
      (x.holds a = true → a'.value.toNat - a.value.toNat < x.room a) := by
  have hn : a.value.toNat ≤ a'.value.toNat := UInt32.le_iff_toNat_le.mp hle
  have hlt := a'.toNat_value_lt
  refine ⟨?_, ?_, ?_⟩
  · rw [Backplane.roomAbove]
    omega
  · apply Address.value_inj
    apply UInt32.toNat_inj.mp
    rw [Address.toNat_value_onward_of_lt (by omega)]
    omega
  · intro h
    obtain ⟨hb, hsize⟩ := holds_iff.mp h
    obtain ⟨hb', hsize'⟩ := holds_iff.mp h'
    rw [room, position]
    omega

end Attachment

namespace Backplane

open Attachment

/-! ## Single bytes, one after the other -/

theorem readEach_eq (b : Backplane Chip) (a : Address) (n : Nat) :
    Bus.readEach b a n = (b.cells.bytes a n, b) := by
  induction n generalizing a with
  | zero => rfl
  | succ n ih =>
      rw [CellMap.bytes_succ, Bus.readEach, read_eq]
      dsimp only
      rw [ih]

theorem cells_writeEach (b : Backplane Chip) (a : Address) (l : List UInt8) :
    (Bus.writeEach b a l).cells = b.cells.overwrite a l := by
  induction l generalizing b a with
  | nil => rfl
  | cons v rest ih => rw [Bus.writeEach, ih, cells_write, ← CellMap.overwrite_cons]

theorem writeEach_append (b : Backplane Chip) (a : Address) (l m : List UInt8) :
    Bus.writeEach b a (l ++ m) =
      Bus.writeEach (Bus.writeEach b a l) (a.onward (UInt32.ofNat l.length)) m := by
  induction l generalizing b a with
  | nil => exact congrArg (Bus.writeEach b · m) a.onward_zero.symm
  | cons v rest ih =>
      rw [List.cons_append, Bus.writeEach, ih, Bus.writeEach, onward_one_ofNat, List.length_cons]

/-! ## Reading through a window -/

/-- What lies under the windows for reading: what the windows show. -/
def ReadsThrough (b : Backplane Chip) : Prop :=
  ∀ a x, b.server a = some x → ∀ a', a ≤ a' → x.holds a' = true → x.get a' = (b.cells a').value

/-- The bytes of a chunk that is read. -/
def chunkBytes (b : Backplane Chip) (a : Address) (n : Nat) : List UInt8 :=
  (b.readChunk a n).1.first :: (b.readChunk a n).1.rest

theorem snd_readChunk (b : Backplane Chip) (a : Address) (n : Nat) : (b.readChunk a n).2 = b := by
  rw [readChunk_eq]
  cases b.server a with
  | none => rfl
  | some x => rfl

/-- A reading takes a chunk and goes on behind it. -/
theorem readBytes_pos (b : Backplane Chip) (a : Address) {n : Nat} (hn : 0 < n) :
    b.readBytes a n =
      let rest := b.readBytes (a.onward (UInt32.ofNat (b.chunkBytes a n).length))
        (n - (b.chunkBytes a n).length)
      (b.chunkBytes a n ++ rest.1, rest.2) := by
  rw [readBytes, if_neg (Nat.ne_of_gt hn)]
  dsimp only
  rw [snd_readChunk]
  rfl

/-- The length of a chunk from an attachment: as far as it reaches, the space reaches and the
    reader wants. -/
theorem length_chunkBytes {b : Backplane Chip} {a : Address} {x : Attachment}
    (h : b.server a = some x) {n : Nat} (hn : 0 < n) :
    (b.chunkBytes a n).length = min (x.room a) (min n (roomAbove a)) := by
  have hx := holds_iff.mp (holds_of_server h)
  have hroom : 0 < x.room a := by
    rw [room, position]
    omega
  have habove := roomAbove_pos a
  rw [chunkBytes, readChunk_eq, h, List.length_cons]
  show (Bytes.slice _ _ _).length + 1 = _
  rw [Bytes.length_slice, following]
  omega

/-- The bytes of a chunk are those of the attachment that answers at its first address. -/
theorem chunkBytes_eq {b : Backplane Chip} {a : Address} {x : Attachment}
    (h : b.server a = some x) {n : Nat} (hn : 0 < n) :
    b.chunkBytes a n = (List.range (b.chunkBytes a n).length).map fun k =>
      x.get (a.onward (UInt32.ofNat k)) := by
  have hx := holds_of_server h
  have hlength := length_chunkBytes h hn
  have hget : ∀ k, k < roomAbove a →
      x.get (a.onward (UInt32.ofNat k)) = Bytes.get x.bytes (x.position a + k) := by
    intro k hk
    rw [roomAbove] at hk
    rw [Attachment.get, position_onward hx k (by omega)]
  have hbytes : b.chunkBytes a n = x.get a ::
      Bytes.slice x.bytes (x.position a + 1) (following (x.room a) (min n (roomAbove a))) := by
    rw [chunkBytes, readChunk_eq, h]
    rfl
  rw [hbytes, List.length_cons, Bytes.length_slice] at hlength ⊢
  rw [List.range_succ_eq_map, List.map_cons, List.map_map]
  refine congr (congrArg List.cons ?_) ?_
  · rw [Address.onward_ofNat_zero]
  · refine List.map_congr_left fun k hk => ?_
    have hlt := List.mem_range.mp hk
    rw [Function.comp_apply, Nat.succ_eq_add_one, hget (k + 1) (by omega), Nat.add_assoc,
      Nat.add_comm 1 k]

/-- A chunk takes at least one byte and no more than are wanted, so that the loop gets on and stops
    in time. -/
theorem length_chunkBytes_le (b : Backplane Chip) (a : Address) {n : Nat} (hn : 0 < n) :
    0 < (b.chunkBytes a n).length ∧ (b.chunkBytes a n).length ≤ n := by
  refine ⟨Nat.succ_pos _, ?_⟩
  cases h : b.server a with
  | none =>
      rw [chunkBytes, readChunk_eq, h]
      exact hn
  | some x =>
      rw [length_chunkBytes h hn]
      omega

/-- Where windows can be read through, a chunk shows the cells it lies over. -/
theorem ReadsThrough.chunkBytes_eq {b : Backplane Chip} (hb : b.ReadsThrough) (a : Address)
    {n : Nat} (hn : 0 < n) :
    b.chunkBytes a n = b.cells.bytes a (b.chunkBytes a n).length := by
  cases h : b.server a with
  | none =>
      have hone : b.chunkBytes a n = [0] := by
        rw [chunkBytes, readChunk_eq, h]
      rw [hone, List.length_singleton, CellMap.bytes_succ, CellMap.bytes_zero, cells, h]
      rfl
  | some x =>
      have hlength := length_chunkBytes h hn
      refine (Backplane.chunkBytes_eq h hn).trans (List.map_congr_left fun k hk => ?_)
      have hlt := List.mem_range.mp hk
      have hroom : k < roomAbove a := by omega
      have hheld := holds_onward (holds_of_server h) (k := k) (by omega) hroom
      exact hb a x h _ (le_onward hroom) hheld

/-- Where windows can be read through, a block shows the cells it lies over. -/
theorem ReadsThrough.readBytes_eq {b : Backplane Chip} (hb : b.ReadsThrough) (a : Address)
    (n : Nat) : b.readBytes a n = (b.cells.bytes a n, b) := by
  -- As the loop does, chunk by chunk: the induction is on the number of bytes still wanted.
  induction n using Nat.strongRecOn generalizing a with
  | ind n ih =>
      rcases Nat.eq_zero_or_pos n with rfl | hn
      · rw [readBytes]
        rfl
      · obtain ⟨hpos, hle⟩ := b.length_chunkBytes_le a hn
        rw [readBytes_pos b a hn]
        dsimp only
        rw [ih (n - (b.chunkBytes a n).length) (by omega)]
        refine congrArg (·, b) ?_
        have hsum : (b.chunkBytes a n).length + (n - (b.chunkBytes a n).length) = n := by omega
        calc b.chunkBytes a n ++ b.cells.bytes _ (n - (b.chunkBytes a n).length)
            = b.cells.bytes a (b.chunkBytes a n).length ++ b.cells.bytes _ _ :=
              congrArg (· ++ _) (hb.chunkBytes_eq a hn)
          _ = b.cells.bytes a ((b.chunkBytes a n).length + (n - (b.chunkBytes a n).length)) :=
              (CellMap.bytes_add b.cells a _ _).symm
          _ = b.cells.bytes a n := by rw [hsum]

/-- Blocks read as single bytes do, if and only if the windows for reading can be read through. -/
theorem readBytes_eq_readEach_iff (b : Backplane Chip) :
    (∀ a n, b.readBytes a n = Bus.readEach b a n) ↔ b.ReadsThrough := by
  constructor
  -- If a window showed something else than what lies under it, the block up to there would show the
  -- difference.
  · intro h a x hx a' hle hx'
    obtain ⟨habove, honward, hroom⟩ := onward_sub hx' hle
    have hk := hroom (holds_of_server hx)
    -- a block from the start of the window up to the address in question
    have hn : 0 < a'.value.toNat - a.value.toNat + 1 := Nat.succ_pos _
    have hlength := length_chunkBytes hx hn
    have hall : (b.chunkBytes a (a'.value.toNat - a.value.toNat + 1)).length =
        a'.value.toNat - a.value.toNat + 1 := by omega
    have hread := congrArg Prod.fst (h a (a'.value.toNat - a.value.toNat + 1))
    rw [readBytes_pos b a hn, readEach_eq, hall, Nat.sub_self, readBytes, if_pos rfl] at hread
    dsimp only at hread
    rw [List.append_nil, chunkBytes_eq hx hn, hall, CellMap.bytes] at hread
    have hlast := List.map_inj_left.mp hread (a'.value.toNat - a.value.toNat)
      (List.mem_range.mpr (Nat.lt_succ_self _))
    rw [honward] at hlast
    exact hlast
  · intro hb a n
    rw [hb.readBytes_eq, readEach_eq]

/-! ## Writing through a window -/

/-- Whoever answers under the windows for writing: the attachments that open them. -/
def WritesThrough (b : Backplane Chip) : Prop :=
  ∀ a x, b.server a = some x → x.writable = true →
    ∀ a', a ≤ a' → x.holds a' = true → b.server a' = some x

/-- Writing moves nothing, so it leaves the precedence as it was. -/
theorem WritesThrough.write {b : Backplane Chip} (hb : b.WritesThrough) (a₀ : Address)
    (v : UInt8) : (Bus.write b a₀ v).WritesThrough := by
  intro a x hx hw a' hle hx'
  have hwrite := attachments_write b a₀ v
  rcases server_updateFirst hwrite a with ⟨hs, hs'⟩ | ⟨hs, hs'⟩
  · obtain ⟨y, hy, rfl⟩ := Option.map_eq_some_iff.mp (hs'.symm.trans hx)
    rw [writable_put] at hw
    rw [holds_put] at hx'
    have hy' := hb a y hy hw a' hle hx'
    rcases server_updateFirst hwrite a' with ⟨ht, ht'⟩ | ⟨ht, ht'⟩
    · rw [ht', hy']
      rfl
    · exact absurd (hs.trans (hy.trans hy'.symm)) ht
  · have hy := hs'.symm.trans hx
    have hy' := hb a x hy hw a' hle hx'
    rcases server_updateFirst hwrite a' with ⟨ht, ht'⟩ | ⟨ht, ht'⟩
    · exact absurd (ht.trans (hy'.trans hy.symm)) hs
    · exact ht'.trans hy'

theorem WritesThrough.writeEach {b : Backplane Chip} (hb : b.WritesThrough) (a : Address)
    (l : List UInt8) : (Bus.writeEach b a l).WritesThrough := by
  induction l generalizing b a with
  | nil => exact hb
  | cons v rest ih => exact ih (hb.write a v) (a.onward 1)

/-- A block that one attachment takes is one that it takes byte by byte, if it would have been
    asked for each byte. -/
theorem eq_writeEach {b b' : Backplane Chip} {a : Address} {l : List UInt8}
    (h : b'.attachments = updateFirst (·.holds a) (·.put a l) b.attachments)
    (hroom : l.length ≤ roomAbove a)
    (hs : ∀ i, i < l.length → b.server (a.onward (UInt32.ofNat i)) = b.server a) :
    b' = Bus.writeEach b a l := by
  -- By induction on the block. The first byte is written by itself, and what is left of the block
  -- goes to the attachment as it is then.
  induction l generalizing b a with
  | nil =>
      refine attachments_inj (h.trans (updateFirst_self _ ?_))
      intro x _
      exact x.put_nil a
  | cons v rest ih =>
      rw [List.length_cons] at hroom
      rcases rest with _ | ⟨u, rest⟩
      · exact attachments_inj (h.trans (attachments_write b a v).symm)
      · rw [List.length_cons] at hroom
        have hnext : a.value.toNat + 1 < Address.spaceSize := by
          rw [roomAbove] at hroom
          omega
        have hs₁ : b.server (a.onward 1) = b.server a := hs 1 (by simp)
        have hwrite := attachments_write b a v
        have server_write : ∀ a', b.server a' = b.server a →
            (Bus.write b a v).server a' = (b.server a).map (·.put a [v]) := by
          intro a' ha'
          rcases server_updateFirst hwrite a' with ⟨ht, ht'⟩ | ⟨ht, -⟩
          · exact ht'.trans (congrArg _ ha')
          · exact absurd ha'.symm ht
        refine ih ?_ ?_ ?_
        -- The attachment that answers at the next address is the one that has taken the first byte,
        -- so one update can be made in two.
        · calc b'.attachments
              = updateFirst (·.holds a) (fun x => (x.put a [v]).put (a.onward 1) (u :: rest))
                  b.attachments := by
                rw [h]
                refine updateFirst_congr_right _ fun x hx => ?_
                exact put_cons (holds_of_server hx) hnext v (u :: rest)
            _ = updateFirst (·.holds a) (·.put (a.onward 1) (u :: rest))
                  (Bus.write b a v).attachments := by
                rw [hwrite]
                exact (updateFirst_updateFirst (p := (·.holds a)) (f := (·.put a [v]))
                  (g := (·.put (a.onward 1) (u :: rest))) b.attachments
                  fun x => x.holds_put a [v] a).symm
            _ = updateFirst (·.holds (a.onward 1)) (·.put (a.onward 1) (u :: rest))
                  (Bus.write b a v).attachments :=
                updateFirst_congr _ ((server_write a rfl).trans (server_write _ hs₁).symm)
        · rw [roomAbove, Address.toNat_value_onward_one hnext]
          rw [roomAbove] at hroom
          rw [List.length_cons]
          omega
        · intro i hi
          rw [onward_one_ofNat, server_write, server_write _ hs₁]
          exact hs (i + 1) (by simpa using hi)

/-- How many bytes a chunk has that is written, and who takes them. -/
theorem WritesThrough.server_chunk {b : Backplane Chip} (hb : b.WritesThrough) (a : Address)
    (v : UInt8) (rest : List UInt8) :
    (v :: rest.take (b.writeChunk a v rest).1).length ≤ roomAbove a ∧
      ∀ i, i < (v :: rest.take (b.writeChunk a v rest).1).length →
        b.server (a.onward (UInt32.ofNat i)) = b.server a := by
  have habove := roomAbove_pos a
  rw [List.length_cons, List.length_take, fst_writeChunk]
  cases hx : b.server a with
  | none =>
      refine ⟨by dsimp only; omega, ?_⟩
      intro i hi
      have hzero : i = 0 := by
        dsimp only at hi
        omega
      rw [hzero, Address.onward_ofNat_zero, hx]
  | some x =>
      dsimp only
      rw [following]
      refine ⟨by omega, ?_⟩
      intro i hi
      -- Only bytes after the first can go through a window, and then the window is open and reaches
      -- as far.
      rcases Nat.eq_zero_or_pos i with rfl | hpos
      · rw [Address.onward_ofNat_zero, hx]
      · have hwindow : 0 < x.window a := by omega
        have hw : x.writable = true := by
          by_contra hw
          rw [window, if_neg hw] at hwindow
          exact Nat.lt_irrefl 0 hwindow
        rw [window_of_writable hw] at hi
        have hroom : i < roomAbove a := by omega
        have hheld := holds_onward (holds_of_server hx) (k := i) (by omega) hroom
        exact hb a x hx hw _ (le_onward hroom) hheld

/-- Where windows can be written through, a block is written as its bytes are one by one. -/
theorem WritesThrough.writeBytes_eq {b : Backplane Chip} (hb : b.WritesThrough) (a : Address)
    (l : List UInt8) : b.writeBytes a l = Bus.writeEach b a l := by
  -- A chunk may be of any length, so the induction is on the number of bytes that remain after it.
  induction hn : l.length using Nat.strongRecOn generalizing b a l with
  | ind n ih =>
      rcases l with _ | ⟨v, rest⟩
      · rw [writeBytes]
        rfl
      · obtain ⟨hroom, hs⟩ := hb.server_chunk a v rest
        have hchunk := eq_writeEach (attachments_writeChunk b a v rest) hroom hs
        have hle : (b.writeChunk a v rest).1 ≤ rest.length := by
          rw [fst_writeChunk]
          cases b.server a with
          | none => exact Nat.zero_le _
          | some x =>
              dsimp only
              rw [following]
              omega
        have hlength : (v :: rest.take (b.writeChunk a v rest).1).length =
            (b.writeChunk a v rest).1 + 1 := by
          rw [List.length_cons, List.length_take, Nat.min_eq_left hle]
        have hlt : (rest.drop (b.writeChunk a v rest).1).length < n := by
          rw [← hn, List.length_drop, List.length_cons]
          omega
        rw [writeBytes]
        dsimp only
        rw [hchunk, ih _ hlt (hb.writeEach a _) _ _ rfl, ← hlength, ← writeEach_append,
          List.cons_append, List.take_append_drop]

/-- A chunk of two bytes, if the attachment reaches on to the second one. -/
theorem fst_writeChunk_pair {b : Backplane Chip} {a : Address} {x : Attachment}
    (hx : b.server a = some x) (hw : x.writable = true)
    (hnext : a.value.toNat + 1 < Address.spaceSize) (hx' : x.holds (a.onward 1) = true) (v : UInt8) :
    (b.writeChunk a 0 [v]).1 = 1 := by
  have hroom : 1 < x.room a := by
    obtain ⟨hb, -⟩ := holds_iff.mp (holds_of_server hx)
    obtain ⟨-, hlt⟩ := holds_iff.mp hx'
    rw [Address.toNat_value_onward_one hnext] at hlt
    rw [room, position]
    omega
  rw [fst_writeChunk, hx, List.length_singleton]
  dsimp only
  rw [window_of_writable hw, following, roomAbove]
  omega

/-- A block of two bytes goes into the attachment that reaches on to the second one. -/
theorem server_writeBytes_pair {b : Backplane Chip} {a : Address} {x : Attachment}
    (hx : b.server a = some x) (hw : x.writable = true)
    (hnext : a.value.toNat + 1 < Address.spaceSize) (hx' : x.holds (a.onward 1) = true) (v : UInt8) :
    (b.writeBytes a [0, v]).server a = some (x.put a [0, v]) := by
  have hmore := fst_writeChunk_pair hx hw hnext hx' v
  have hchunk := attachments_writeChunk b a 0 [v]
  rw [hmore] at hchunk
  rw [writeBytes]
  dsimp only
  rw [hmore, List.drop_one, List.tail_cons, writeBytes]
  exact server_updateFirst_self hchunk hx

/-- Byte by byte, the second one goes to whoever answers there. -/
theorem server_writeEach_pair {b : Backplane Chip} {a : Address} {x y : Attachment}
    (hx : b.server a = some x) (hy : b.server (a.onward 1) = some y) (hya : ¬ y.holds a = true)
    (v : UInt8) : (Bus.writeEach b a [0, v]).server a = some (x.put a [0]) := by
  have hne : b.server a ≠ b.server (a.onward 1) := by
    intro hs
    rw [hx, hy] at hs
    obtain rfl := Option.some.inj hs
    exact hya (holds_of_server hx)
  have hfirst : (Bus.write b a 0).server a = some (x.put a [0]) :=
    server_updateFirst_self (attachments_write b a 0) hx
  have hsecond : (Bus.write b a 0).server (a.onward 1) = some y := by
    rcases server_updateFirst (attachments_write b a 0) (a.onward 1) with ⟨hs, -⟩ | ⟨-, ht⟩
    · exact absurd hs hne
    · rw [ht, hy]
  show (Bus.write (Bus.write b a 0) (a.onward 1) v).server a = _
  rcases server_updateFirst (attachments_write (Bus.write b a 0) (a.onward 1) v) a with
    ⟨hs, -⟩ | ⟨-, ht⟩
  · rw [hfirst, hsecond] at hs
    have hyx : y = x.put a [0] := Option.some.inj hs
    rw [hyx, holds_put] at hya
    exact absurd (holds_of_server hx) hya
  · rw [ht, hfirst]

/-- Where blocks are written as single bytes are, whoever has the next address and can be written
    answers there as well. The two bytes of the block tell apart who takes the second. -/
theorem server_onward_one {b : Backplane Chip}
    (h : ∀ a l, b.writeBytes a l = Bus.writeEach b a l) {a : Address} {x : Attachment}
    (hx : b.server a = some x) (hw : x.writable = true)
    (hnext : a.value.toNat + 1 < Address.spaceSize) (hx' : x.holds (a.onward 1) = true) :
    b.server (a.onward 1) = some x := by
  obtain ⟨y, hy⟩ : ∃ y, b.server (a.onward 1) = some y :=
    Option.isSome_iff_exists.mp (List.find?_isSome.mpr ⟨x, List.mem_of_find?_eq_some hx, hx'⟩)
  rcases find?_before b.attachments hx hx' hy with rfl | hya
  · exact hy
  · obtain ⟨v, hv⟩ := exists_put_pair_ne (holds_of_server hx) hnext hx' hw
    have hblock := server_writeBytes_pair hx hw hnext hx' v
    rw [h a [0, v], server_writeEach_pair hx hy hya v] at hblock
    exact absurd (Option.some.inj hblock).symm hv

/-- Blocks are written as single bytes are, if and only if the windows for writing can be written
    through. -/
theorem writeBytes_eq_writeEach_iff (b : Backplane Chip) :
    (∀ a l, b.writeBytes a l = Bus.writeEach b a l) ↔ b.WritesThrough := by
  constructor
  -- A block of two bytes finds out about neighbours. The rest of the window is reached neighbour by
  -- neighbour.
  · intro h a x hx hw a' hle hx'
    obtain ⟨habove, honward, hroom⟩ := onward_sub hx' hle
    have hxa := holds_of_server hx
    have hk := hroom hxa
    rw [← honward]
    generalize a'.value.toNat - a.value.toNat = k at habove hk
    -- by induction on the distance from the start of the window
    induction k with
    | zero =>
        rw [Address.onward_ofNat_zero]
        exact hx
    | succ k ih =>
        have hnext := holds_onward hxa hk habove
        have hlast := ih (by omega) (by omega)
        have hvalue := toNat_value_onward_of_room (a := a) (k := k) (by omega)
        rw [roomAbove] at habove
        have hstep : (a.onward (UInt32.ofNat k)).onward 1 = a.onward (UInt32.ofNat (k + 1)) := by
          rw [show (1 : UInt32) = UInt32.ofNat 1 from rfl, Address.onward_onward_ofNat]
        rw [← hstep] at hnext ⊢
        exact server_onward_one h hlast hw (by omega) hnext
  · intro hb a l
    exact hb.writeBytes_eq a l

/-! ## All requests -/

/-- Every request is answered as if all its bytes were accessed one by one. -/
def Bytewise (b : Backplane Chip) : Prop :=
  ∀ q : Request, serve b q = serveEach b q

/-- When blocks are accessed byte by byte, everything is. -/
theorem bytewise_of_eq_each {b : Backplane Chip}
    (hread : ∀ a n, b.readBytes a n = Bus.readEach b a n)
    (hwrite : ∀ a l, b.writeBytes a l = Bus.writeEach b a l) : b.Bytewise := by
  intro q
  -- Words, long numbers and pointers are blocks of two, four and three bytes.
  cases q with
  | readByte a => rfl
  | peekByte a => rfl
  | readWord a =>
      show (Reply.word (UInt16.ofNat (littleEndian (b.readBytes a 2).1)), (b.readBytes a 2).2) = _
      rw [hread]
      rfl
  | readLong a =>
      show (Reply.long (UInt32.ofNat (littleEndian (b.readBytes a 4).1)), (b.readBytes a 4).2) = _
      rw [hread]
      rfl
  | readPointer a =>
      show (Reply.pointer (Address.ofValue (UInt32.ofNat (littleEndian (b.readBytes a 3).1))),
        (b.readBytes a 3).2) = _
      rw [hread]
      rfl
  | readBytes a n =>
      show (Reply.bytes (b.readBytes a n).1, (b.readBytes a n).2) = _
      rw [hread]
      rfl
  | writeByte a v => rfl
  | writeWord a v =>
      show (Reply.done, b.writeBytes a (wordBytes v)) = _
      rw [hwrite]
      rfl
  | writeLong a v =>
      show (Reply.done, b.writeBytes a (longBytes v)) = _
      rw [hwrite]
      rfl
  | writeBytes a l =>
      show (Reply.done, b.writeBytes a l) = _
      rw [hwrite]
      rfl
  | load start l =>
      show (Reply.done, b.writeBytes (Address.ofValue start) l) = _
      rw [hwrite]
      rfl

/-- The longer accesses of a backplane are accesses to single bytes, if and only if its windows can
    be read and written through. -/
theorem bytewise_iff (b : Backplane Chip) : b.Bytewise ↔ b.ReadsThrough ∧ b.WritesThrough := by
  rw [← readBytes_eq_readEach_iff, ← writeBytes_eq_writeEach_iff]
  constructor
  · intro h
    constructor
    · intro a n
      have hq : (Reply.bytes (b.readBytes a n).1, (b.readBytes a n).2) =
          (Reply.bytes (Bus.readEach b a n).1, (Bus.readEach b a n).2) := h (.readBytes a n)
      obtain ⟨hreply, hbus⟩ := Prod.mk.inj hq
      exact Prod.ext (Reply.bytes.inj hreply) hbus
    · intro a l
      have hq : (Reply.done, b.writeBytes a l) = (Reply.done, Bus.writeEach b a l) :=
        h (.writeBytes a l)
      exact (Prod.mk.inj hq).2
  · rintro ⟨hread, hwrite⟩
    exact bytewise_of_eq_each hread hwrite

/-- A RAM of two zeros at `00:1000`, whose second byte lies under a flat region. -/
def overlaid : Backplane Chip where
  regions := [⟨0x1001, ⟨#[0xAA]⟩, by decide, by decide⟩]
  devices := [.inl (Ram.ofSize 0x1000 2 false)]

/-- Not every backplane that can be built is bytewise: a word takes its high byte from the RAM,
    where a reading of that byte alone shows the region. -/
theorem overlaid_not_bytewise :
    (empty.attach (.inl (Ram.ofSize 0x1000 2 false) : Chip)).1.addRegion
        ⟨0x1001, ⟨#[0xAA]⟩, by decide, by decide⟩ = .ok overlaid ∧
      (serve overlaid (.readWord ⟨0, 0x1000⟩)).1 = .word 0 ∧
      (serveEach overlaid (.readWord ⟨0, 0x1000⟩)).1 = .word 0xAA00 ∧
      ¬ overlaid.Bytewise := by
  have hserve : (serve overlaid (.readWord ⟨0, 0x1000⟩)).1 = .word 0 := by
    show Reply.word (UInt16.ofNat (littleEndian (overlaid.readBytes ⟨0, 0x1000⟩ 2).1)) = _
    rw [readBytes_pos overlaid ⟨0, 0x1000⟩ (by decide)]
    show Reply.word (UInt16.ofNat (littleEndian ([0, 0] ++ (overlaid.readBytes _ 0).1))) = _
    rw [readBytes]
    rfl
  have heach : (serveEach overlaid (.readWord ⟨0, 0x1000⟩)).1 = .word 0xAA00 := rfl
  refine ⟨rfl, hserve, heach, ?_⟩
  intro h
  rw [h, heach] at hserve
  exact absurd hserve (by decide)

end Backplane

end W65C816
