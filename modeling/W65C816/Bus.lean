import W65C816.Address
import W65C816.Word

/-!
# The bus

The processor reaches everything outside itself through a bus. A bus has to say how one byte is
read, written and peeked at; accesses of more bytes are made of those unless a bus has a better
way.

* Reading can change what is attached to the bus, so `Bus.read` returns the bus as well.
  `Bus.peek` looks without being noticed.
* There is no bus error. What nobody answers reads as zero and ignores writes.
* `Bus.readWord`, `Bus.readLong` and `Bus.readPointer` take consecutive 24-bit addresses.
  `Bus.readWordInBank` and its kin wrap at the end of the bank of their first byte.
* `Bus.readEach` and `Bus.writeEach` are the plain accesses of any length, one byte at a time.
-/

namespace W65C816

/-- Something that answers the processor at every 24-bit address. -/
class Bus (B : Type) where
  /-- Reads a byte. -/
  read : B → Address → UInt8 × B
  /-- Writes a byte. -/
  write : B → Address → UInt8 → B
  /-- Reads a byte without any effect on what is attached. -/
  peek : B → Address → UInt8
  /-- Reads a word, the byte at the lower address first. -/
  readWord : B → Address → UInt16 × B := fun b a =>
    let (low, b) := read b a
    let (high, b) := read b (a.onward 1)
    (joinBytes low high, b)
  /-- Writes a word, the byte at the lower address first. -/
  writeWord : B → Address → UInt16 → B := fun b a v =>
    write (write b a (lowByte v)) (a.onward 1) (highByte v)
  /-- Reads a 32-bit number, the byte at the lowest address first. -/
  readLong : B → Address → UInt32 × B := fun b a =>
    let (b0, b) := read b a
    let (b1, b) := read b (a.onward 1)
    let (b2, b) := read b (a.onward 2)
    let (b3, b) := read b (a.onward 3)
    (UInt32.ofNat (littleEndian [b0, b1, b2, b3]), b)
  /-- Writes a 32-bit number, the byte at the lowest address first. -/
  writeLong : B → Address → UInt32 → B := fun b a v =>
    let b := write b a v.toUInt8
    let b := write b (a.onward 1) (v >>> 8).toUInt8
    let b := write b (a.onward 2) (v >>> 16).toUInt8
    write b (a.onward 3) (v >>> 24).toUInt8
  /-- Reads a 24-bit address: the offset as a word, then the bank. -/
  readPointer : B → Address → Address × B := fun b a =>
    let (offset, b) := readWord b a
    let (bank, b) := read b (a.onward 2)
    (⟨bank, offset⟩, b)
  /-- True while something attached asks for an interrupt. -/
  irqActive : B → Bool := fun _ => false

namespace Bus

variable {B : Type} [Bus B]

/-! ## Accesses that stay in a bank -/

/-- Reads a word whose high byte comes from the same bank. Only a word that starts at the last
    offset of the bank has to be read byte by byte. -/
def readWordInBank (b : B) (a : Address) : UInt16 × B :=
  if a.offset = 0xFFFF then
    let (low, b) := read b a
    let (high, b) := read b (a.inBank 1)
    (joinBytes low high, b)
  else
    readWord b a

/-- Writes a word whose high byte goes to the same bank. -/
def writeWordInBank (b : B) (a : Address) (v : UInt16) : B :=
  if a.offset = 0xFFFF then
    write (write b a (lowByte v)) (a.inBank 1) (highByte v)
  else
    writeWord b a v

/-- Reads a 24-bit address whose three bytes come from one bank. -/
def readPointerInBank (b : B) (a : Address) : Address × B :=
  if a.offset ≤ 0xFFFD then
    readPointer b a
  else
    let (offset, b) := readWordInBank b a
    let (bank, b) := read b (a.inBank 2)
    (⟨bank, offset⟩, b)

/-! ## Accesses of any length -/

/-- Reads `n` bytes at consecutive addresses, one after the other. -/
def readEach (b : B) (a : Address) : Nat → List UInt8 × B
  | 0 => ([], b)
  | n + 1 =>
      let (v, b) := read b a
      let (rest, b) := readEach b (a.onward 1) n
      (v :: rest, b)

/-- Writes bytes to consecutive addresses, one after the other. -/
def writeEach (b : B) (a : Address) : List UInt8 → B
  | [] => b
  | v :: rest => writeEach (write b a v) (a.onward 1) rest

/-- Peeks at `n` consecutive addresses. -/
def peekEach (b : B) (a : Address) : Nat → List UInt8
  | 0 => []
  | n + 1 => peek b a :: peekEach b (a.onward 1) n

@[simp] theorem length_readEach (b : B) (a : Address) (n : Nat) :
    (readEach b a n).1.length = n := by
  induction n generalizing b a with
  | zero => rfl
  | succ n ih => simp [readEach, ih]

end Bus

end W65C816
