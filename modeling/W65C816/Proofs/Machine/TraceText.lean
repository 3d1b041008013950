import Mathlib.Algebra.Ring.Nat
import W65C816.Machine.Trace
import W65C816.Proofs.Machine.Fetch

/-!
# What the text of a trace line tells

A trace line is printed for people to read, and the text is all that is kept of it. The text of a
line that has been taken from a machine tells everything that the line holds.

The reason is that the text is made of columns which are always equally wide: hexadecimal numbers
with a fixed number of digits, mnemonics of three letters, and a column for the bytes of the
instruction, which the longest instruction fills. So a text can be cut into its columns without
looking at what they say.

* `Hex.fixed_inj`: numbers are told apart by their digits, as far as the digits go.
* `eq_of_join_eq`: texts of known widths are told apart by the one text that they are joined to.
* `Hex.spaced` is a row of bytes with a blank before each. `Hex.spaced_blanks_inj`: where the row
  ends can be seen, because no digit is a blank.
* `TraceLine.Fits` says that a line keeps to its columns, and `TraceLine.Fits.eq_of_text_eq` that
  such lines are known by their texts.
* `TraceLine.captured_text_inj` is what this comes to for lines taken from machines.
-/

namespace W65C816

/-! ## Hexadecimal numbers -/

namespace Hex

theorem digit_mod (n : Nat) : digit (n % 16) = digit n := by
  rw [digit, digit, Nat.mod_mod]

/-- A digit tells the last four bits of its number. -/
theorem digit_inj {m n : Nat} (h : digit m = digit n) : m % 16 = n % 16 := by
  have hsmall : ∀ i < 16, ∀ j < 16, digit i = digit j → i = j := by decide
  apply hsmall _ (Nat.mod_lt m (by decide)) _ (Nat.mod_lt n (by decide))
  rw [digit_mod, digit_mod, h]

/-- No digit is a blank, so what is padded can be told from what is printed. -/
theorem digit_ne_blank (n : Nat) : digit n ≠ ' ' := by
  rw [digit]
  split <;> decide

/-- Digits tell of a number what they have room for. -/
theorem fixed_inj {k m n : Nat} (h : fixed k m = fixed k n) : m % 16 ^ k = n % 16 ^ k := by
  induction k generalizing m n with
  | zero => rw [Nat.pow_zero, Nat.mod_one, Nat.mod_one]
  | succ k ih =>
      obtain ⟨hhigh, hlow⟩ := List.append_singleton_inj.mp h
      rw [Nat.pow_succ', Nat.mod_mul, Nat.mod_mul, ih hhigh, digit_inj hlow]

theorem byte_inj {v w : UInt8} (h : byte v = byte w) : v = w := by
  have hmod : v.toNat % 0x100 = w.toNat % 0x100 := fixed_inj (k := 2) (String.ofList_inj.mp h)
  have hv := v.toNat_lt
  have hw := w.toNat_lt
  exact UInt8.toNat_inj.mp (by omega)

theorem word_inj {v w : UInt16} (h : word v = word w) : v = w := by
  have hmod : v.toNat % 0x10000 = w.toNat % 0x10000 := fixed_inj (k := 4) (String.ofList_inj.mp h)
  have hv := v.toNat_lt
  have hw := w.toNat_lt
  exact UInt16.toNat_inj.mp (by omega)

/-- The width of a byte does not depend on its value. -/
theorem length_byte (v : UInt8) : (byte v).length = 2 := by
  rw [byte, String.length_ofList, length_fixed]

theorem length_word (v : UInt16) : (word v).length = 4 := by
  rw [word, String.length_ofList, length_fixed]

/-! ## Bytes in a row -/

/-- The digits of bytes, with a blank before each byte. -/
def spaced (l : List UInt8) : List Char :=
  l.flatMap fun v => ' ' :: fixed 2 v.toNat

theorem spaced_cons (v : UInt8) (l : List UInt8) :
    spaced (v :: l) = ' ' :: (fixed 2 v.toNat ++ spaced l) :=
  rfl

theorem length_spaced (l : List UInt8) : (spaced l).length = 3 * l.length := by
  induction l with
  | nil => rfl
  | cons v rest ih =>
      rw [spaced_cons, List.length_cons, List.length_append, length_fixed, ih, List.length_cons]
      omega

/-- A row of bytes is not a row of blanks, whatever is padded to it. -/
theorem spaced_cons_ne_blanks (v : UInt8) (l : List UInt8) (m n : Nat) :
    spaced (v :: l) ++ List.replicate m ' ' ≠ List.replicate n ' ' := by
  intro h
  have hdigit : digit v.toNat ∈ List.replicate n ' ' := by
    rw [← h]
    simp [spaced_cons, fixed]
  exact digit_ne_blank _ (List.eq_of_mem_replicate hdigit)

/-- Bytes in a row are known by their digits, even if an unknown number of blanks follows them. -/
theorem spaced_blanks_inj {l l' : List UInt8} {m n : Nat}
    (h : spaced l ++ List.replicate m ' ' = spaced l' ++ List.replicate n ' ') : l = l' := by
  -- By induction on the first row. Where one row ends and the other goes on, a digit would have to
  -- be a blank.
  induction l generalizing l' with
  | nil =>
      cases l' with
      | nil => rfl
      | cons v' rest' => exact absurd h.symm (spaced_cons_ne_blanks v' rest' n m)
  | cons v rest ih =>
      cases l' with
      | nil => exact absurd h (spaced_cons_ne_blanks v rest m n)
      | cons v' rest' =>
          rw [spaced_cons, spaced_cons, List.cons_append, List.cons_append, List.append_assoc,
            List.append_assoc] at h
          obtain ⟨hdigits, hrest⟩ := List.append_inj (List.cons.inj h).2
            (by rw [length_fixed, length_fixed])
          rw [byte_inj (congrArg String.ofList hdigits), ih hrest]

end Hex

/-! ## Columns -/

/-- A text that is made of columns can be cut where their widths say. -/
theorem eq_of_join_eq {l l' : List String} (hwidths : l.map String.length = l'.map String.length)
    (h : String.join l = String.join l') : l = l' := by
  induction l generalizing l' with
  | nil => exact (List.map_eq_nil_iff.mp hwidths.symm).symm
  | cons s rest ih =>
      cases l' with
      | nil => cases hwidths
      | cons s' rest' =>
          obtain ⟨hwidth, hwidths⟩ := List.cons.inj hwidths
          rw [String.join_cons, String.join_cons, ← String.toList_inj, String.toList_append,
            String.toList_append] at h
          obtain ⟨hfirst, hrest⟩ := List.append_inj h hwidth
          rw [String.toList_inj.mp hfirst, ih hwidths (String.toList_inj.mp hrest)]

namespace Address

/-- The columns of the text of an address. -/
def columns (a : Address) : List String :=
  [Hex.byte a.bank, ":", Hex.word a.offset]

/-- An address is printed in columns: bank, colon and offset. -/
theorem text_eq (a : Address) : a.text = String.join a.columns := by
  simp [text, columns, String.append_assoc, toString]

/-- The columns of an address, which have fixed widths. -/
theorem widths_columns (a : Address) : a.columns.map String.length = [2, 1, 4] := by
  rw [columns, List.map_cons, List.map_cons, List.map_singleton, Hex.length_byte, Hex.length_word]
  rfl

theorem length_text (a : Address) : a.text.length = 7 := by
  rw [text_eq, String.length_join, widths_columns]
  rfl

/-- An address is known by its text. -/
theorem text_inj {a b : Address} (h : a.text = b.text) : a = b := by
  rw [text_eq, text_eq] at h
  have hcolumns := eq_of_join_eq (by rw [widths_columns, widths_columns]) h
  simp only [columns, List.cons.injEq] at hcolumns
  obtain ⟨hbank, -, hoffset, -⟩ := hcolumns
  cases a
  cases b
  exact (mk.injEq ..).mpr ⟨Hex.byte_inj hbank, Hex.word_inj hoffset⟩

end Address

theorem Operation.length_mnemonic (o : Operation) : o.mnemonic.length = 3 := by
  cases o <;> rfl

namespace TraceLine

/-- The letter for the mode. -/
def modeText (emulation : Bool) : String :=
  if emulation then "E" else "N"

/-- The bytes of the stack, as they are printed. -/
def stackText (l : List UInt8) : String :=
  String.join (l.map fun v => " " ++ Hex.byte v)

/-- The columns of the text of a line, and what stands between them. -/
def columns (l : TraceLine) : List String :=
  [l.address.text, "  ", padded 11 (bytesText (l.opcode :: l.operands)), "  ", l.mnemonic,
    "  A=", Hex.word l.a, " X=", Hex.word l.x, " ", "Y=", Hex.word l.y, " S=", Hex.word l.sp,
    " D=", Hex.word l.d, " DB=", Hex.byte l.dbr, " ", "P=", Hex.byte l.status, " ",
    modeText l.emulation, " |", stackText l.stack]

/-- A line is the join of its columns, labels and blanks included. -/
theorem text_eq (l : TraceLine) : l.text = String.join l.columns := by
  simp [text, columns, modeText, stackText, String.append_assoc, toString]

/-! ## What the columns tell -/

/-- The first byte of an instruction has no blank before it. -/
theorem toList_bytesText (v : UInt8) (l : List UInt8) :
    (bytesText (v :: l)).toList = Hex.fixed 2 v.toNat ++ Hex.spaced l := by
  induction l generalizing v with
  | nil => simp [bytesText, Hex.byte, Hex.spaced]
  | cons w rest ih =>
      have hrest := ih w
      rw [bytesText, List.map_cons] at hrest
      rw [bytesText, List.map_cons, List.map_cons, String.intercalate_cons_cons,
        String.toList_append, String.toList_append, hrest, Hex.byte, String.toList_ofList,
        Hex.spaced_cons, List.append_assoc]
      rfl

/-- The bytes of an instruction take one place less than the same bytes in a row. -/
theorem length_bytesText (v : UInt8) (l : List UInt8) :
    (bytesText (v :: l)).length = 2 + 3 * l.length := by
  rw [← String.length_toList, toList_bytesText, List.length_append, Hex.length_fixed,
    Hex.length_spaced]

/-- Text that is no longer than its column fills it when it is padded. -/
theorem length_padded {width : Nat} {s : String} (h : s.length ≤ width) :
    (padded width s).length = width := by
  rw [padded, String.length_append, String.length_ofList, List.length_replicate]
  omega

/-- The bytes of an instruction are known by their column, also how many there are. -/
theorem padded_bytesText_inj {width : Nat} {v v' : UInt8} {l l' : List UInt8}
    (h : padded width (bytesText (v :: l)) = padded width (bytesText (v' :: l'))) :
    v = v' ∧ l = l' := by
  rw [padded, padded, ← String.toList_inj, String.toList_append, String.toList_append,
    String.toList_ofList, String.toList_ofList, toList_bytesText, toList_bytesText,
    List.append_assoc, List.append_assoc] at h
  obtain ⟨hfirst, hrest⟩ := List.append_inj h (by rw [Hex.length_fixed, Hex.length_fixed])
  exact ⟨Hex.byte_inj (congrArg String.ofList hfirst), Hex.spaced_blanks_inj hrest⟩

theorem toList_stackText (l : List UInt8) : (stackText l).toList = Hex.spaced l := by
  rw [stackText, String.toList_join, List.flatMap_map, Hex.spaced]
  simp [Hex.byte]

theorem length_stackText (l : List UInt8) : (stackText l).length = 3 * l.length := by
  rw [← String.length_toList, toList_stackText, Hex.length_spaced]

theorem stackText_inj {l l' : List UInt8} (h : stackText l = stackText l') : l = l' := by
  apply Hex.spaced_blanks_inj (m := 0) (n := 0)
  rw [← toList_stackText, ← toList_stackText, h]

theorem length_modeText (e : Bool) : (modeText e).length = 1 := by
  cases e <;> rfl

theorem modeText_inj {e e' : Bool} (h : modeText e = modeText e') : e = e' := by
  revert e e'
  decide

/-! ## Lines that keep to their columns -/

/-- What a line has to be for its text to keep to the columns. -/
structure Fits (l : TraceLine) : Prop where
  mnemonic : l.mnemonic.length = 3
  operands : l.operands.length ≤ 3
  stack : l.stack.length = stackDepth

namespace Fits

variable {l l' : TraceLine}

/-- All columns have fixed widths, since the only text whose length varies is padded. Cut at these
    widths, a line falls into its columns. -/
theorem widths_columns (h : l.Fits) :
    l.columns.map String.length =
      [7, 2, 11, 2, 3, 4, 4, 3, 4, 1, 2, 4, 3, 4, 3, 4, 4, 2, 1, 2, 2, 1, 1, 2, 9] := by
  -- Three operands are as many as there is room for.
  have hbytes : (bytesText (l.opcode :: l.operands)).length ≤ 11 := by
    have hoperands := h.operands
    rw [length_bytesText]
    omega
  simp only [columns, List.map_cons, List.map_nil, Address.length_text, length_padded hbytes,
    h.mnemonic, Hex.length_word, Hex.length_byte, length_modeText, length_stackText, h.stack]
  rfl

/-- All lines are equally long. -/
theorem length_text (h : l.Fits) : l.text.length = 85 := by
  rw [text_eq, String.length_join, h.widths_columns]
  rfl

/-- Lines that keep to their columns are known by their texts. -/
theorem eq_of_text_eq (h : l.Fits) (h' : l'.Fits) (ht : l.text = l'.text) : l = l' := by
  rw [text_eq, text_eq] at ht
  have hcolumns := eq_of_join_eq (h.widths_columns.trans h'.widths_columns.symm) ht
  simp only [columns, List.cons.injEq] at hcolumns
  obtain ⟨haddress, -, hbytes, -, hmnemonic, -, ha, -, hx, -, -, hy, -, hsp, -, hd, -, hdbr, -, -,
    hstatus, -, hmode, -, hstack, -⟩ := hcolumns
  obtain ⟨hopcode, hoperands⟩ := padded_bytesText_inj hbytes
  cases l
  cases l'
  exact (mk.injEq ..).mpr ⟨Address.text_inj haddress, hopcode, hmnemonic, hoperands,
    Hex.word_inj ha, Hex.word_inj hx, Hex.word_inj hy, Hex.word_inj hsp, Hex.word_inj hd,
    Hex.byte_inj hdbr, Hex.byte_inj hstatus, modeText_inj hmode, stackText_inj hstack⟩

end Fits

/-! ## Lines taken from machines -/

/-- Every line that is taken from a machine keeps to its columns, whatever is on the bus. -/
theorem capture_fits {B : Type} [Bus B] (c : Core) (b : B) : (capture c b).Fits where
  mnemonic := Operation.length_mnemonic _
  operands := by
    have hsize :=
      (Instruction.ofOpcode (Bus.peek b c.programAddress)).size_le_four c.status
    rw [capture, List.length_map, List.length_range]
    omega
  stack := by
    rw [capture, List.length_map, List.length_range]

/-- Printing a line loses nothing. If two lines have the same text, from whatever cores they have
    been taken and from whatever kinds of bus, they are the same line: the same address, bytes of
    the instruction, registers, flags and bytes of the stack. -/
theorem captured_text_inj {B B' : Type} [Bus B] [Bus B'] (c c' : Core) (b : B) (b' : B')
    (h : (capture c b).text = (capture c' b').text) : capture c b = capture c' b' :=
  (capture_fits c b).eq_of_text_eq (capture_fits c' b') h

/-- A branch to itself prints the same line at every turn, though the cycles go on. The second line
    is taken from a recorded bus. -/
theorem same_line_at_next_turn :
    let m := (Machine.start (Memory.blank.load 0xFFFC [0x00, 0x80] |>.load 0x8000 [0x80, 0xFE])
      .standard).machine
    let m' := m.recorded.step.machine
    let line :=
      "00:8000  80 FE        BRA  A=0000 X=0000 Y=0000 S=01FF D=0000 DB=00 P=24 E | 00 00 00"
    m.core ≠ m'.core ∧ (capture m.core m.bus).text = line ∧ (capture m'.core m'.bus).text = line ∧
      capture m.core m.bus = capture m'.core m'.bus := by
  intro m m' line
  have hcore : m.core ≠ m'.core := by decide +kernel
  have hfirst : (capture m.core m.bus).text = line := by decide +kernel
  have hsecond : (capture m'.core m'.bus).text = line := by decide +kernel
  exact ⟨hcore, hfirst, hsecond,
    captured_text_inj m.core m'.core m.bus m'.bus (hfirst.trans hsecond.symm)⟩

end TraceLine

end W65C816
