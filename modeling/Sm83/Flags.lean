import Sm83.Word

/-!
The four condition flags. They occupy the upper nibble of a byte; the lower nibble reads as zero.
-/

set_option autoImplicit false

namespace Sm83

structure Flags where
  zero : Bool := false
  subtract : Bool := false
  halfCarry : Bool := false
  carry : Bool := false
  deriving DecidableEq, Repr

namespace Flags

/-- The lower nibble of the byte is ignored. -/
def ofByte (b : Byte) : Flags := ⟨b.bit 7, b.bit 6, b.bit 5, b.bit 4⟩

def toByte (f : Flags) : Byte :=
  (if f.zero then 0x80 else 0) + (if f.subtract then 0x40 else 0) +
    (if f.halfCarry then 0x20 else 0) + (if f.carry then 0x10 else 0)

@[simp] theorem ofByte_toByte (f : Flags) : ofByte f.toByte = f := by
  obtain ⟨z, n, h, c⟩ := f
  cases z <;> cases n <;> cases h <;> cases c <;> decide

theorem toByte_ofByte : ∀ b : Byte, (ofByte b).toByte = b &&& 0xF0 :=
  Byte.forall_of_ofNat (by decide +kernel)

end Flags

end Sm83
