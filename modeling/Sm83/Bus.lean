import Sm83.Word

/-!
A bus answers reads and takes writes of single bytes; a read may change the unit behind it.
Words go low byte first, the high byte at the next address, which wraps.
-/

set_option autoImplicit false

namespace Sm83

class Bus (μ : Type) where
  read : μ → Word → Byte × μ
  write : μ → Word → Byte → μ

namespace Bus

/-- The first address of the page of device registers. -/
def devicePage : Word := 0xFF00

variable {μ : Type} [Bus μ]

def readWord (m : μ) (a : Word) : Word × μ :=
  let (l, m) := read m a
  let (h, m) := read m (a + 1)
  (.ofBytes h l, m)

def writeWord (m : μ) (a : Word) (v : Word) : μ :=
  write (write m a v.low) (a + 1) v.high

def push (m : μ) (sp : Word) (v : Word) : Word × μ := (sp - 2, writeWord m (sp - 2) v)

def pop (m : μ) (sp : Word) : Word × Word × μ :=
  let (v, m) := readWord m sp
  (v, sp + 2, m)

end Bus

end Sm83
