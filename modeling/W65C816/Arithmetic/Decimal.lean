import W65C816.Word

/-!
# Packed decimal arithmetic

A byte can hold two decimal digits and a word four, one in each nibble. Addition and subtraction go
from digit to digit, the lowest first, with a carry or a borrow from one to the next.

The digit rules are those of an adder that corrects binary nibbles, so they also say what becomes of
nibbles that are no decimal digits.
-/

namespace W65C816

namespace Decimal

/-- Zero or one. -/
def unit (carry : Bool) : UInt8 :=
  if carry then 1 else 0

/-- The low nibble of a byte. -/
def lowDigit (v : UInt8) : UInt8 :=
  v % 0x10

/-- The high nibble of a byte. -/
def highDigit (v : UInt8) : UInt8 :=
  v / 0x10

/-- The byte with the given nibbles. -/
def joinDigits (low high : UInt8) : UInt8 :=
  low + 0x10 * high

/-- Adds two nibbles and a carry. A sum above nine is corrected by six, and the carry comes out of
    the corrected sum. -/
def addDigit (a b : UInt8) (carry : Bool) : UInt8 × Bool :=
  let sum := a + b + unit carry
  let corrected := if sum > 9 then sum + 6 else sum
  (corrected % 0x10, corrected > 0xF)

/-- Subtracts a nibble and a borrow from a nibble. A negative difference is corrected by ten. -/
def subtractDigit (a b : UInt8) (borrow : Bool) : UInt8 × Bool :=
  let difference := a - b - unit borrow
  let negative := a.toNat < b.toNat + (unit borrow).toNat
  let corrected := if negative then difference + 10 else difference
  (corrected % 0x10, negative)

/-- Extends a rule for digits to the two digits of a byte. -/
def onByte (rule : UInt8 → UInt8 → Bool → UInt8 × Bool) (a b : UInt8) (carry : Bool) :
    UInt8 × Bool :=
  let (low, carry) := rule (lowDigit a) (lowDigit b) carry
  let (high, carry) := rule (highDigit a) (highDigit b) carry
  (joinDigits low high, carry)

/-- Extends a rule for digits to an operand of either width. -/
def onOperand (rule : UInt8 → UInt8 → Bool → UInt8 × Bool) (w : Width) (a b : UInt16)
    (carry : Bool) : UInt16 × Bool :=
  let (low, carry) := onByte rule (lowByte a) (lowByte b) carry
  match w with
  | .byte => (low.toUInt16, carry)
  | .word =>
      let (high, carry) := onByte rule (highByte a) (highByte b) carry
      (joinBytes low high, carry)

/-- Adds two decimal operands and a carry. -/
def add (w : Width) (a b : UInt16) (carry : Bool) : UInt16 × Bool :=
  onOperand addDigit w a b carry

/-- Subtracts a decimal operand and a borrow, and tells whether a borrow is left over. -/
def subtract (w : Width) (a b : UInt16) (borrow : Bool) : UInt16 × Bool :=
  onOperand subtractDigit w a b borrow

end Decimal

end W65C816
