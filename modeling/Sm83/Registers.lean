import Sm83.Flags
import Sm83.Hex

/-!
The register file: six words, of which four are read and written also by halves.
Every write through `set` or `setPair` leaves the lower nibble of F zero; a record update does not.
-/

set_option autoImplicit false

namespace Sm83

inductive Reg8 where
  | a | f | b | c | d | e | h | l
  deriving DecidableEq, Repr

inductive Pair where
  | bc | de | hl | sp | af
  deriving DecidableEq, Repr

structure Registers where
  af : Word := 0
  bc : Word := 0
  de : Word := 0
  hl : Word := 0
  sp : Word := 0
  pc : Word := 0
  deriving DecidableEq, Repr

namespace Registers

/-- The values the boot program leaves behind. -/
def powerUp : Registers :=
  { af := 0x01B0, bc := 0x0013, de := 0x00D8, hl := 0x014D, sp := 0xFFFE, pc := 0x0100 }

def get (r : Registers) : Reg8 → Byte
  | .a => r.af.high
  | .f => r.af.low
  | .b => r.bc.high
  | .c => r.bc.low
  | .d => r.de.high
  | .e => r.de.low
  | .h => r.hl.high
  | .l => r.hl.low

def set (r : Registers) (x : Reg8) (v : Byte) : Registers :=
  match x with
  | .a => { r with af := .ofBytes v r.af.low }
  | .f => { r with af := .ofBytes r.af.high (v &&& 0xF0) }
  | .b => { r with bc := .ofBytes v r.bc.low }
  | .c => { r with bc := .ofBytes r.bc.high v }
  | .d => { r with de := .ofBytes v r.de.low }
  | .e => { r with de := .ofBytes r.de.high v }
  | .h => { r with hl := .ofBytes v r.hl.low }
  | .l => { r with hl := .ofBytes r.hl.high v }

theorem get_set_self (r : Registers) (x : Reg8) (v : Byte) :
    (r.set x v).get x = if x = .f then v &&& 0xF0 else v := by
  cases x <;> simp [get, set]

theorem get_set_of_ne (r : Registers) {x y : Reg8} (v : Byte) (h : y ≠ x) :
    (r.set x v).get y = r.get y := by
  cases x <;> cases y <;> simp_all [get, set]

@[simp] theorem pc_set (r : Registers) (x : Reg8) (v : Byte) : (r.set x v).pc = r.pc := by
  cases x <;> rfl

@[simp] theorem sp_set (r : Registers) (x : Reg8) (v : Byte) : (r.set x v).sp = r.sp := by
  cases x <;> rfl

def pair (r : Registers) : Pair → Word
  | .bc => r.bc
  | .de => r.de
  | .hl => r.hl
  | .sp => r.sp
  | .af => r.af

def setPair (r : Registers) (p : Pair) (v : Word) : Registers :=
  match p with
  | .bc => { r with bc := v }
  | .de => { r with de := v }
  | .hl => { r with hl := v }
  | .sp => { r with sp := v }
  | .af => { r with af := v &&& 0xFFF0 }

theorem pair_setPair_self (r : Registers) (p : Pair) (v : Word) :
    (r.setPair p v).pair p = if p = .af then v &&& 0xFFF0 else v := by
  cases p <;> simp [pair, setPair]

theorem pair_setPair_of_ne (r : Registers) {p q : Pair} (v : Word) (h : q ≠ p) :
    (r.setPair p v).pair q = r.pair q := by
  cases p <;> cases q <;> simp_all [pair, setPair]

@[simp] theorem pc_setPair (r : Registers) (p : Pair) (v : Word) : (r.setPair p v).pc = r.pc := by
  cases p <;> rfl

def flags (r : Registers) : Flags := .ofByte (r.get .f)

def setFlags (r : Registers) (f : Flags) : Registers := r.set .f f.toByte

@[simp] theorem flags_setFlags (r : Registers) (f : Flags) : (r.setFlags f).flags = f := by
  obtain ⟨z, n, h, c⟩ := f
  cases z <;> cases n <;> cases h <;> cases c <;>
    simp [setFlags, flags, get_set_self, Flags.toByte, Flags.ofByte] <;> decide

def flagged {α : Type} (r : Registers) (f : Flags → α × Flags) : α × Registers :=
  let (v, flags) := f r.flags
  (v, r.setFlags flags)

/-! A mask selects bits of F, the unused ones included. -/

def raise (r : Registers) (mask : Byte) : Registers := r.set .f (r.get .f ||| mask)

def lower (r : Registers) (mask : Byte) : Registers := r.set .f (r.get .f &&& ~~~mask)

def holds (r : Registers) (mask : Byte) : Bool := r.get .f &&& mask == mask

def assign (r : Registers) (mask : Byte) (on : Bool) : Registers :=
  if on then r.raise mask else r.lower mask

def render (r : Registers) : String :=
  s!"AF: {Hex.word r.af} BC: {Hex.word r.bc} DE: {Hex.word r.de} " ++
    s!"HL: {Hex.word r.hl} SP: {Hex.word r.sp} PC: {Hex.word r.pc}"

end Registers

end Sm83
