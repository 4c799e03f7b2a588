import Sm83.Flags

/-!
Rotations and shifts by one place, the exchange of nibbles, and operations on single bits.
The carry receives the bit that leaves; a rotation through carry is one of nine bits.
-/

set_option autoImplicit false

namespace Sm83

inductive Rotation where
  | rlc | rrc | rl | rr | sla | sra | swap | srl
  deriving DecidableEq, Repr

namespace Rotation

/-- The bit that leaves the byte; nothing leaves in an exchange of nibbles. -/
def out (v : Byte) : Rotation → Bool
  | .rlc | .rl | .sla => v.bit 7
  | .rrc | .rr | .sra | .srl => v.bit 0
  | .swap => false

def result (v : Byte) (carry : Bool) : Rotation → Byte
  | .rlc => (v <<< 1) ||| (v >>> 7)
  | .rrc => (v >>> 1) ||| (v <<< 7)
  | .rl => (v <<< 1) ||| carry.toUInt8
  | .rr => (v >>> 1) ||| (if carry then 0x80 else 0)
  | .sla => v <<< 1
  | .sra => (v >>> 1) ||| (v &&& 0x80)
  | .swap => (v <<< 4) ||| (v >>> 4)
  | .srl => v >>> 1

def apply (r : Rotation) (v : Byte) (f : Flags) : Byte × Flags :=
  let w := r.result v f.carry
  (w, { zero := w == 0, carry := r.out v })

/-- The short forms on the accumulator never set the zero flag. -/
def applyShort (r : Rotation) (v : Byte) (f : Flags) : Byte × Flags :=
  let (w, g) := r.apply v f
  (w, { g with zero := false })

end Rotation

namespace Byte

/-- Zero is set when the bit is clear; carry is kept. -/
def test (v : Byte) (n : Fin 8) (f : Flags) : Unit × Flags :=
  ((), { zero := !v.bit n, subtract := false, halfCarry := true, carry := f.carry })

def clearBit (v : Byte) (n : Fin 8) : Byte := v &&& ~~~(1 <<< UInt8.ofNat n)

def setBit (v : Byte) (n : Fin 8) : Byte := v ||| (1 <<< UInt8.ofNat n)

end Byte

end Sm83
