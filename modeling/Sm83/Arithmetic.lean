import Sm83.Flags

/-!
Addition, subtraction and logic on bytes and words, each with the flags it reads and the flags it leaves.
Carries and borrows are stated on numbers: a carry leaves the low nibble, byte or word exactly when the
sum of the low parts and the incoming carry is too large for it.
-/

set_option autoImplicit false

namespace Sm83

namespace Arithmetic

/-- Carry is kept. -/
def increment (v : Byte) (f : Flags) : Byte × Flags :=
  let result := v + 1
  (result, { zero := result == 0, subtract := false, halfCarry := 15 < v.toNat % 16 + 1, carry := f.carry })

/-- Carry is kept. -/
def decrement (v : Byte) (f : Flags) : Byte × Flags :=
  let result := v - 1
  (result, { zero := result == 0, subtract := true, halfCarry := v.toNat % 16 < 1, carry := f.carry })

def addCarry (a b : Byte) (c : Bool) : Byte × Flags :=
  let result := a + b + c.toUInt8
  (result,
    { zero := result == 0
      subtract := false
      halfCarry := 15 < a.toNat % 16 + b.toNat % 16 + c.toNat
      carry := 255 < a.toNat + b.toNat + c.toNat })

theorem toNat_toUInt8 (c : Bool) : c.toUInt8.toNat = c.toNat := by cases c <;> rfl

theorem toNat_addCarry (a b : Byte) (c : Bool) :
    (addCarry a b c).1.toNat + 256 * (addCarry a b c).2.carry.toNat = a.toNat + b.toNat + c.toNat := by
  have ha := a.toNat_lt
  have hb := b.toNat_lt
  have hc := c.toNat_lt
  simp only [addCarry, UInt8.toNat_add, toNat_toUInt8]
  by_cases h : 255 < a.toNat + b.toNat + c.toNat
  · simp only [h, decide_true, Bool.toNat_true]; omega
  · simp only [h, decide_false, Bool.toNat_false]; omega

def subBorrow (a b : Byte) (c : Bool) : Byte × Flags :=
  let result := a - b - c.toUInt8
  (result,
    { zero := result == 0
      subtract := true
      halfCarry := a.toNat % 16 < b.toNat % 16 + c.toNat
      carry := a.toNat < b.toNat + c.toNat })

theorem toNat_subBorrow (a b : Byte) (c : Bool) :
    (subBorrow a b c).1.toNat + b.toNat + c.toNat =
      a.toNat + 256 * (subBorrow a b c).2.carry.toNat := by
  have ha := a.toNat_lt
  have hb := b.toNat_lt
  have hc := c.toNat_lt
  simp only [subBorrow, UInt8.toNat_sub, toNat_toUInt8]
  by_cases h : a.toNat < b.toNat + c.toNat
  · simp only [h, decide_true, Bool.toNat_true]; omega
  · simp only [h, decide_false, Bool.toNat_false]; omega

def add (a b : Byte) (_ : Flags) : Byte × Flags := addCarry a b false

def addWithCarry (a b : Byte) (f : Flags) : Byte × Flags := addCarry a b f.carry

def sub (a b : Byte) (_ : Flags) : Byte × Flags := subBorrow a b false

def subWithCarry (a b : Byte) (f : Flags) : Byte × Flags := subBorrow a b f.carry

/-- The flags of a subtraction, without its result. -/
def compare (a b : Byte) (f : Flags) : Unit × Flags := ((), (sub a b f).2)

def and (a b : Byte) (_ : Flags) : Byte × Flags :=
  (a &&& b, { zero := a &&& b == 0, halfCarry := true })

def or (a b : Byte) (_ : Flags) : Byte × Flags := (a ||| b, { zero := a ||| b == 0 })

def xor (a b : Byte) (_ : Flags) : Byte × Flags := (a ^^^ b, { zero := a ^^^ b == 0 })

/-- Half carry leaves bit 11 and carry bit 15; zero is kept. -/
def addWord (a b : Word) (f : Flags) : Word × Flags :=
  (a + b,
    { zero := f.zero
      subtract := false
      halfCarry := 4095 < a.toNat % 4096 + b.toNat % 4096
      carry := 65535 < a.toNat + b.toNat })

/-- The offset is signed, yet half carry and carry are those of the unsigned addition to the low byte. -/
def addOffset (base : Word) (offset : Byte) (_ : Flags) : Word × Flags :=
  (base + offset.signExtend,
    { halfCarry := 15 < base.toNat % 16 + offset.toNat % 16
      carry := 255 < base.toNat % 256 + offset.toNat })

/-- Brings the result of an addition or subtraction of packed decimal bytes back to packed decimal. -/
def decimalAdjust (a : Byte) (f : Flags) : Byte × Flags :=
  let low := f.halfCarry || (!f.subtract && 9 < a.toNat % 16)
  let high := f.carry || (!f.subtract && 0x99 < a.toNat)
  let adjust : Byte := (if low then 0x06 else 0) + (if high then 0x60 else 0)
  let result := if f.subtract then a - adjust else a + adjust
  (result, { zero := result == 0, subtract := f.subtract, halfCarry := false, carry := high })

def complement (a : Byte) (f : Flags) : Byte × Flags :=
  (~~~a, { f with subtract := true, halfCarry := true })

def setCarry (f : Flags) : Flags := { f with subtract := false, halfCarry := false, carry := true }

def flipCarry (f : Flags) : Flags := { f with subtract := false, halfCarry := false, carry := !f.carry }

end Arithmetic

inductive AluOp where
  | add | adc | sub | sbc | and | xor | or | cp
  deriving DecidableEq, Repr

def AluOp.apply (a b : Byte) (f : Flags) : AluOp → Byte × Flags
  | .add => Arithmetic.add a b f
  | .adc => Arithmetic.addWithCarry a b f
  | .sub => Arithmetic.sub a b f
  | .sbc => Arithmetic.subWithCarry a b f
  | .and => Arithmetic.and a b f
  | .xor => Arithmetic.xor a b f
  | .or => Arithmetic.or a b f
  | .cp => (a, (Arithmetic.compare a b f).2)

end Sm83
