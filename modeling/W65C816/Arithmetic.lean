import W65C816.Arithmetic.Decimal
import W65C816.Status

/-!
# Addition and subtraction

The accumulator adds and subtracts with the carry flag, in binary or, when the decimal flag is set,
in packed decimal.

* Subtraction is the addition of the complement, so the carry flag is the absence of a borrow.
* The overflow flag is always that of the binary operation: the carry into the sign bit differs from
  the carry out of it.
* A comparison is a binary subtraction without a borrow that keeps nothing but flags.
-/

namespace W65C816

namespace Arithmetic

/-- The operand with all bits of its width inverted. -/
def complement (w : Width) (v : UInt16) : UInt16 :=
  w.truncate (~~~v)

/-- Sum of two operands and a carry, of any size. -/
def binarySum (w : Width) (a b : UInt16) (carry : Bool) : Nat :=
  (w.truncate a).toNat + (w.truncate b).toNat + carry.toNat

/-- Sum of what lies below the sign bits of two operands, and a carry. -/
def sumBelowSign (w : Width) (a b : UInt16) (carry : Bool) : Nat :=
  (w.truncate a).toNat % (w.modulus / 2) + (w.truncate b).toNat % (w.modulus / 2) + carry.toNat

/-- True when the signed sum does not fit: one of the carries into and out of the sign bit is
    missing. -/
def overflows (w : Width) (a b : UInt16) (carry : Bool) : Bool :=
  decide (w.modulus / 2 ≤ sumBelowSign w a b carry) != decide (w.modulus ≤ binarySum w a b carry)

/-- Adds two operands and a carry in binary. -/
def addBinary (w : Width) (a b : UInt16) (carry : Bool) : UInt16 × Bool :=
  let sum := binarySum w a b carry
  (UInt16.ofNat (sum % w.modulus), w.modulus ≤ sum)

/-- Adds an operand and the carry flag to another. -/
def addWithCarry (s : Status) (w : Width) (a b : UInt16) : UInt16 × Status :=
  let (sum, carry) :=
    if s.decimal then Decimal.add w a b s.carry else addBinary w a b s.carry
  (sum, { s with carry, overflow := overflows w a b s.carry }.withResult w sum)

/-- Subtracts an operand, and one more unless the carry flag is set, from another. -/
def subtractWithBorrow (s : Status) (w : Width) (a b : UInt16) : UInt16 × Status :=
  let inverted := complement w b
  let (difference, carry) :=
    if s.decimal then
      let (difference, borrow) := Decimal.subtract w a b !s.carry
      (difference, !borrow)
    else
      addBinary w a inverted s.carry
  (difference,
    { s with carry, overflow := overflows w a inverted s.carry }.withResult w difference)

/-- Compares a register with an operand. -/
def compare (s : Status) (w : Width) (register b : UInt16) : Status :=
  let register := w.truncate register
  { s with carry := b ≤ register }.withResult w (w.truncate (register - b))

end Arithmetic

end W65C816
