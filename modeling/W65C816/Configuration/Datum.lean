/-!
# Plain data

A `Datum` is a value as it stands in a configuration file: nothing, a truth value, a number, a list
or a record of named fields. Readers take a datum apart and fail on anything that is not exactly
what they look for; no kind of datum is taken for another, but for one rule: a record may be given
as the list of its fields without their names, `Datum.named`.
-/

namespace W65C816

/-- A value in a configuration file. -/
inductive Datum where
  | null
  | bool (value : Bool)
  | integer (value : Int)
  /-- A text, or a number that is no integer. Nothing here is made of these. -/
  | other
  | list (members : List Datum)
  | record (fields : List (String × Datum))
  deriving Inhabited

namespace Datum

/-- The fields of a record. -/
def fields? : Datum → Option (List (String × Datum))
  | record fields => some fields
  | _ => none

/-- A record whose fields have the given names. A list gives them in order and may leave out the
    last ones. -/
def named (names : List String) : Datum → Datum
  | list members => if members.length ≤ names.length then record (names.zip members) else other
  | d => d

/-- A truth value. -/
def bool? : Datum → Option Bool
  | bool b => some b
  | _ => none

/-- An integer of at least zero and less than `bound`. -/
def below? (bound : Nat) : Datum → Option Nat
  | integer (.ofNat n) => if n < bound then some n else none
  | _ => none

/-- A number of one byte. -/
def byte? (d : Datum) : Option UInt8 :=
  (d.below? 0x100).map UInt8.ofNat

/-- A number of two bytes. -/
def word? (d : Datum) : Option UInt16 :=
  (d.below? 0x10000).map UInt16.ofNat

/-- Reads the field of a record that must be there. -/
def field? {α : Type} (d : Datum) (name : String) (read : Datum → Option α) : Option α := do
  read (← (← d.fields?).lookup name)

/-- Reads the field of a record that may be missing. -/
def fieldOr? {α : Type} (d : Datum) (name : String) (read : Datum → Option α) (default : α) :
    Option α := do
  match (← d.fields?).lookup name with
  | some v => read v
  | none => pure default

/-- A number of one byte. -/
def ofByte (v : UInt8) : Datum :=
  integer v.toNat

/-- A number of two bytes. -/
def ofWord (v : UInt16) : Datum :=
  integer v.toNat

/-- A record that is given by names is taken as it is. -/
@[simp]
theorem named_record (names : List String) (fields : List (String × Datum)) :
    named names (record fields) = record fields := rfl

theorem below?_integer {n bound : Nat} (h : n < bound) : below? bound (integer n) = some n :=
  if_pos h

/-- Numbers are checked against the size of what they are read into, and bytes pass. -/
theorem byte?_ofByte (v : UInt8) : byte? (ofByte v) = some v := by
  rw [byte?, ofByte, below?_integer v.toNat_lt]
  simp

theorem word?_ofWord (v : UInt16) : word? (ofWord v) = some v := by
  rw [word?, ofWord, below?_integer v.toNat_lt]
  simp

end Datum

end W65C816
