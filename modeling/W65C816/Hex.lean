/-!
# Hexadecimal text

Every number the library prints is upper-case hexadecimal of a fixed or a least number of digits.

* `Hex.fixed k n` writes the `k` low digits of `n`, the highest first.
* `Hex.atLeast k n` writes all digits of `n`, filled up with zeros to `k` of them.
* `Hex.byte`, `Hex.word` and `Hex.addressSpace` are the three widths in use.
-/

namespace W65C816

namespace Hex

/-- The digit that stands for `n % 16`. -/
def digit (n : Nat) : Char :=
  match n % 16 with
  | 0 => '0' | 1 => '1' | 2 => '2' | 3 => '3' | 4 => '4' | 5 => '5' | 6 => '6' | 7 => '7'
  | 8 => '8' | 9 => '9' | 10 => 'A' | 11 => 'B' | 12 => 'C' | 13 => 'D' | 14 => 'E'
  | _ => 'F'

/-- The `k` lowest digits of `n`, the highest of them first. -/
def fixed : Nat → Nat → List Char
  | 0, _ => []
  | k + 1, n => fixed k (n / 16) ++ [digit n]

/-- How many digits `n` needs. Zero needs one. -/
def digitCount (n : Nat) : Nat :=
  n.log2 / 4 + 1

/-- All digits of `n`, with leading zeros up to `k` digits. -/
def atLeast (k n : Nat) : String :=
  String.ofList (fixed (max k (digitCount n)) n)

/-- Two digits. -/
def byte (v : UInt8) : String :=
  String.ofList (fixed 2 v.toNat)

/-- Four digits. -/
def word (v : UInt16) : String :=
  String.ofList (fixed 4 v.toNat)

/-- At least six digits, enough for a 24-bit address. A larger number keeps all of its digits. -/
def addressSpace (v : UInt32) : String :=
  atLeast 6 v.toNat

@[simp] theorem length_fixed (k n : Nat) : (fixed k n).length = k := by
  induction k generalizing n with
  | zero => rfl
  | succ k ih => simp [fixed, ih]

end Hex

end W65C816
