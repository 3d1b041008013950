import W65C816.Bus

/-!
# The stack

The stack lies in bank 0 and grows downward. Its pointer names the place that the next push writes
to. In native mode the pointer has all 16 bits; in emulation mode the stack is confined to page 1
and wraps there.

* `Stack.home` brings a pointer to where the mode allows it to be.
* `Stack.push` and `Stack.pull` move bytes and words. A word is pushed high byte first, so that it
  lies in memory with the low byte first.
* `Stack.peek` looks at a byte without pulling it.
-/

namespace W65C816

/-- The stack pointer and whether it is confined to page 1. -/
structure Stack where
  pointer : UInt16
  confined : Bool
  deriving DecidableEq, Repr, Inhabited

namespace Stack

/-- The place for a pointer: itself, or its low byte on page 1. -/
def home (confined : Bool) (pointer : UInt16) : UInt16 :=
  if confined then 0x100 + pointer % 0x100 else pointer

/-- A stack at a pointer, brought to page 1 if it is confined. -/
def make (pointer : UInt16) (confined : Bool) : Stack :=
  ⟨home confined pointer, confined⟩

/-- The stack after power-on. -/
def powerOn : Stack :=
  make 0x1FF true

/-- The address that the next push writes to. -/
def address (s : Stack) : Address :=
  ⟨0, s.pointer⟩

/-- Moves the stack to another pointer. -/
def relocate (s : Stack) (pointer : UInt16) : Stack :=
  make pointer s.confined

/-- Confines the stack to page 1 or lets it free. -/
def confine (s : Stack) (confined : Bool) : Stack :=
  make s.pointer confined

/-- The stack without its `n` lowest bytes. -/
def raised (s : Stack) (n : UInt16) : Stack :=
  s.relocate (s.pointer + n)

/-- The stack with room for one more byte. -/
def lowered (s : Stack) : Stack :=
  s.relocate (s.pointer - 1)

variable {B : Type} [Bus B]

/-- Pushes a byte. -/
def pushByte (s : Stack) (b : B) (v : UInt8) : Stack × B :=
  (s.lowered, Bus.write b s.address v)

/-- Pushes a word, high byte first. -/
def pushWord (s : Stack) (b : B) (v : UInt16) : Stack × B :=
  let (s, b) := s.pushByte b (highByte v)
  s.pushByte b (lowByte v)

/-- Pushes the byte or the word that an operand of the given width is. -/
def push (s : Stack) (b : B) (w : Width) (v : UInt16) : Stack × B :=
  match w with
  | .byte => s.pushByte b (lowByte v)
  | .word => s.pushWord b v

/-- Pulls a byte. -/
def pullByte (s : Stack) (b : B) : UInt8 × Stack × B :=
  let s := s.raised 1
  let (v, b) := Bus.read b s.address
  (v, s, b)

/-- Pulls a word, low byte first. -/
def pullWord (s : Stack) (b : B) : UInt16 × Stack × B :=
  let (low, s, b) := s.pullByte b
  let (high, s, b) := s.pullByte b
  (joinBytes low high, s, b)

/-- Pulls an operand of the given width. -/
def pull (s : Stack) (b : B) (w : Width) : UInt16 × Stack × B :=
  match w with
  | .byte =>
      let (v, s, b) := s.pullByte b
      (v.toUInt16, s, b)
  | .word => s.pullWord b

/-- The byte that lies `depth` places above the pointer. The one pushed last has depth 1. -/
def peek (s : Stack) (b : B) (depth : UInt16) : UInt8 :=
  Bus.peek b (s.raised depth).address

end Stack

end W65C816
