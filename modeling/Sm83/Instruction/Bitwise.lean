import Sm83.Instruction.Operand
import Sm83.Rotation

/-!
The extended group. The two upper bits of its code select a rotation, a test, a clearing or a setting of a
bit; the next three number the rotation or the bit, the last three the place.
-/

set_option autoImplicit false

namespace Sm83

inductive Bitwise where
  | rotate (r : Rotation) (target : Place)
  | test (n : Fin 8) (source : Place)
  | reset (n : Fin 8) (target : Place)
  | set (n : Fin 8) (target : Place)
  deriving DecidableEq, Repr

namespace Rotation

def all : Vector Rotation 8 := #v[.rlc, .rrc, .rl, .rr, .sla, .sra, .swap, .srl]

def ofIndex (i : Fin 8) : Rotation := all.get i

def name : Rotation → String
  | .rlc => "RLC"
  | .rrc => "RRC"
  | .rl => "RL"
  | .rr => "RR"
  | .sla => "SLA"
  | .sra => "SRA"
  | .swap => "SWAP"
  | .srl => "SRL"

end Rotation

namespace Bitwise

def ofCode (code : Byte) : Bitwise :=
  let y : Fin 8 := ⟨code.toNat / 8 % 8, Nat.mod_lt _ (by decide)⟩
  let place := Place.ofIndex ⟨code.toNat % 8, Nat.mod_lt _ (by decide)⟩
  match code.toNat / 64 with
  | 0 => .rotate (.ofIndex y) place
  | 1 => .test y place
  | 2 => .reset y place
  | _ => .set y place

def mnemonic : Bitwise → String
  | .rotate r t => r.name ++ " " ++ t.name
  | .test n t => "BIT " ++ Nat.repr n ++ "," ++ t.name
  | .reset n t => "RES " ++ Nat.repr n ++ "," ++ t.name
  | .set n t => "SET " ++ Nat.repr n ++ "," ++ t.name

end Bitwise

end Sm83
