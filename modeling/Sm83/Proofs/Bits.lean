import Sm83.Word

/-!
The bits of a byte, one by one and in a row with the lowest first, and what the operations on bytes do to each.
-/

set_option autoImplicit false

namespace Sm83

namespace Byte

/-- The bits of a byte, the lowest first. -/
def bits (b : Byte) : List Bool := (List.range 8).map b.bit

theorem bits_eq (b : Byte) :
    b.bits = [b.bit 0, b.bit 1, b.bit 2, b.bit 3, b.bit 4, b.bit 5, b.bit 6, b.bit 7] := rfl

theorem bit_of_le (b : Byte) {n : Nat} (h : 8 ≤ n) : b.bit n = false :=
  Nat.testBit_lt_two_pow (Nat.lt_of_lt_of_le b.toNat_lt (Nat.pow_le_pow_right (by decide) h))

theorem bits_inj {v w : Byte} (h : v.bits = w.bits) : v = w := by
  refine UInt8.toNat_inj.1 (Nat.eq_of_testBit_eq fun i => ?_)
  rcases Nat.lt_or_ge i 8 with hi | hi
  · exact List.map_inj_left.1 h i (List.mem_range.2 hi)
  · exact (v.bit_of_le hi).trans (w.bit_of_le hi).symm

theorem bit_or (v w : Byte) (i : Nat) : (v ||| w).bit i = (v.bit i || w.bit i) := by
  rw [bit, UInt8.toNat_or, Nat.testBit_or]
  rfl

theorem bit_and (v w : Byte) (i : Nat) : (v &&& w).bit i = (v.bit i && w.bit i) := by
  rw [bit, UInt8.toNat_and, Nat.testBit_and]
  rfl

theorem bit_not (v : Byte) (i : Nat) : (~~~v).bit i = (decide (i < 8) && !v.bit i) := by
  have hv : v.toNat < 2 ^ 8 := v.toNat_lt
  have hn : (~~~v).toNat = UInt8.size - (v.toNat + 1) := by
    rw [UInt8.toNat_not, Nat.sub_sub, Nat.add_comm]
  have ht : (UInt8.size - (v.toNat + 1)).testBit i = (decide (i < 8) && !v.toNat.testBit i) :=
    Nat.testBit_two_pow_sub_succ hv i
  rw [bit, hn, ht, bit]

theorem bit_shiftLeft (v k : Byte) (i : Nat) :
    (v <<< k).bit i = (decide (i < 8) && (decide (k.toNat % 8 ≤ i) && v.bit (i - k.toNat % 8))) := by
  rw [bit, UInt8.toNat_shiftLeft, Nat.testBit_mod_two_pow, Nat.testBit_shiftLeft]
  rfl

theorem bit_shiftRight (v k : Byte) (i : Nat) : (v >>> k).bit i = v.bit (k.toNat % 8 + i) := by
  rw [bit, UInt8.toNat_shiftRight, Nat.testBit_shiftRight]
  rfl

theorem bit_one_shiftLeft (n : Fin 8) (i : Nat) : bit (1 <<< UInt8.ofNat n) i = decide (n.val = i) := by
  have h : (1 <<< UInt8.ofNat n : Byte).toNat = 2 ^ n.val := by
    revert n
    decide
  rw [bit, h, Nat.testBit_two_pow]

theorem bit_toUInt8 (c : Bool) (i : Nat) : bit c.toUInt8 i = (c && decide (0 = i)) := by
  cases c with
  | false => exact Nat.zero_testBit i
  | true => exact bit_one_shiftLeft 0 i

theorem bit_sign (c : Bool) (i : Nat) : bit (if c then 0x80 else 0) i = (c && decide (7 = i)) := by
  cases c with
  | false => exact Nat.zero_testBit i
  | true => exact bit_one_shiftLeft 7 i

end Byte

end Sm83
