import Sm83.Arithmetic
import Sm83.Registers

/-!
What instructions name: eight places that hold a byte, conditions on the flags, and words that point.
-/

set_option autoImplicit false

namespace Sm83

/-- The places of a byte, in the order of their numbers in an instruction code; `atHl` is the byte on the
bus at the address in HL. -/
inductive Place where
  | b | c | d | e | h | l | atHl | a
  deriving DecidableEq, Repr

namespace Place

def all : Vector Place 8 := #v[.b, .c, .d, .e, .h, .l, .atHl, .a]

def ofIndex (i : Fin 8) : Place := all.get i

def register? : Place → Option Reg8
  | .b => some .b
  | .c => some .c
  | .d => some .d
  | .e => some .e
  | .h => some .h
  | .l => some .l
  | .atHl => none
  | .a => some .a

def name : Place → String
  | .b => "B"
  | .c => "C"
  | .d => "D"
  | .e => "E"
  | .h => "H"
  | .l => "L"
  | .atHl => "(HL)"
  | .a => "A"

theorem register?_eq_none_iff (t : Place) : t.register? = none ↔ t = .atHl := by
  cases t <;> simp [register?]

end Place

def Pair.name : Pair → String
  | .bc => "BC"
  | .de => "DE"
  | .hl => "HL"
  | .sp => "SP"
  | .af => "AF"

inductive Condition where
  | nz | z | nc | c
  deriving DecidableEq, Repr

namespace Condition

def holds (f : Flags) : Condition → Bool
  | .nz => !f.zero
  | .z => f.zero
  | .nc => !f.carry
  | .c => f.carry

def name : Condition → String
  | .nz => "NZ"
  | .z => "Z"
  | .nc => "NC"
  | .c => "C"

end Condition

/-- A word used as an address; HL may move by one after its use. -/
inductive Pointer where
  | bc | de | hlUp | hlDown
  deriving DecidableEq, Repr

namespace Pointer

def pair : Pointer → Pair
  | .bc => .bc
  | .de => .de
  | .hlUp | .hlDown => .hl

def shift : Pointer → Word
  | .bc | .de => 0
  | .hlUp => 1
  | .hlDown => -1

def name : Pointer → String
  | .bc => "(BC)"
  | .de => "(DE)"
  | .hlUp => "(HL+)"
  | .hlDown => "(HL-)"

end Pointer

/-- The operation with its first operand; only some name the accumulator. -/
def AluOp.name : AluOp → String
  | .add => "ADD A,"
  | .adc => "ADC A,"
  | .sub => "SUB "
  | .sbc => "SBC A,"
  | .and => "AND "
  | .xor => "XOR "
  | .or => "OR "
  | .cp => "CP "

end Sm83
