/-!
Bytes and words. A word is 256 times its high half plus its low half; arithmetic on both wraps.
-/

set_option autoImplicit false

namespace Sm83

abbrev Byte := UInt8

abbrev Word := UInt16

namespace Word

def high (w : Word) : Byte := (w / 256).toUInt8

def low (w : Word) : Byte := w.toUInt8

def ofBytes (h l : Byte) : Word := 256 * h.toUInt16 + l.toUInt16

@[simp] theorem high_ofBytes (h l : Byte) : high (ofBytes h l) = h := by
  apply UInt8.toNat_inj.1
  simp [high, ofBytes]
  have := h.toNat_lt
  have := l.toNat_lt
  omega

@[simp] theorem low_ofBytes (h l : Byte) : low (ofBytes h l) = l := by
  apply UInt8.toNat_inj.1
  simp [low, ofBytes]

@[simp] theorem ofBytes_high_low (w : Word) : ofBytes (high w) (low w) = w := by
  apply UInt16.toNat_inj.1
  simp [ofBytes, high, low]
  have := w.toNat_lt
  omega

theorem toNat_ofBytes (h l : Byte) : (ofBytes h l).toNat = 256 * h.toNat + l.toNat := by
  simp [ofBytes]
  have := h.toNat_lt
  have := l.toNat_lt
  omega

theorem toNat_halves (w : Word) : w.toNat = 256 * w.high.toNat + w.low.toNat := by
  rw [← toNat_ofBytes, ofBytes_high_low]

/-! The mask that clears the lower nibble of a low half. -/

theorem high_and_mask (v : Word) : (v &&& 0xFFF0).high = v.high := by
  have hv := v.toNat_lt
  have h : (v.toNat &&& 65520) / 2 ^ 8 = v.toNat / 2 ^ 8 := by
    rw [Nat.and_div_two_pow]
    exact (Nat.and_two_pow_sub_one_eq_mod (v.toNat / 2 ^ 8) 8).trans (Nat.mod_eq_of_lt (by omega))
  apply UInt8.toNat_inj.1
  simp [high]
  omega

theorem low_and_mask (v : Word) : (v &&& 0xFFF0).low = v.low &&& 0xF0 := UInt16.toUInt8_and v 0xFFF0

end Word

namespace Byte

theorem forall_of_ofNat {P : Byte → Prop} (h : ∀ n < 256, P (UInt8.ofNat n)) (v : Byte) : P v := by
  have hv := h v.toNat v.toNat_lt
  rwa [UInt8.ofNat_toNat] at hv

def bit (b : Byte) (i : Nat) : Bool := b.toNat.testBit i

/-- The word with the same two's complement value. -/
def signExtend (b : Byte) : Word := Word.ofBytes (if b.bit 7 then 0xFF else 0) b

theorem toNat_signExtend (b : Byte) :
    b.signExtend.toNat = if b.toNat < 128 then b.toNat else b.toNat + 65280 := by
  have hl := b.toNat_lt
  have hb : b.bit 7 = decide (b.toNat / 128 % 2 = 1) := Nat.testBit_eq_decide_div_mod_eq
  rw [signExtend, Word.toNat_ofBytes, hb]
  by_cases h : b.toNat < 128
  · have hk : b.toNat / 128 % 2 ≠ 1 := by omega
    simp [h, hk]
  · have hk : b.toNat / 128 % 2 = 1 := by omega
    simp [h, hk]
    omega

end Byte

end Sm83
