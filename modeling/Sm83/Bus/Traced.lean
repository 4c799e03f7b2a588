import Sm83.Bus
import Sm83.Hex

/-!
A unit that keeps the accesses made to it, oldest first, and otherwise behaves as the unit inside.
-/

set_option autoImplicit false

namespace Sm83

inductive Access where
  | read (address : Word) (value : Byte)
  | write (address : Word) (value : Byte)
  deriving DecidableEq, Repr

def Access.render : Access → String
  | .read a v => "r" ++ Hex.render .lower 4 a.toNat ++ "=" ++ Hex.render .lower 2 v.toNat
  | .write a v => "w" ++ Hex.render .lower 4 a.toNat ++ "=" ++ Hex.render .lower 2 v.toNat

structure Traced (μ : Type) where
  unit : μ
  accesses : Array Access := #[]

namespace Traced

variable {μ : Type}

def forget (t : Traced μ) : Traced μ := { t with accesses := #[] }

instance [Bus μ] : Bus (Traced μ) where
  read t a :=
    let (v, unit) := Bus.read t.unit a
    (v, { unit, accesses := t.accesses.push (.read a v) })
  write t a v := { unit := Bus.write t.unit a v, accesses := t.accesses.push (.write a v) }

@[simp] theorem read_eq [Bus μ] (t : Traced μ) (a : Word) :
    Bus.read t a =
      ((Bus.read t.unit a).1,
        ⟨(Bus.read t.unit a).2, t.accesses.push (.read a (Bus.read t.unit a).1)⟩) := rfl

@[simp] theorem write_eq [Bus μ] (t : Traced μ) (a : Word) (v : Byte) :
    Bus.write t a v = ⟨Bus.write t.unit a v, t.accesses.push (.write a v)⟩ := rfl

end Traced

end Sm83
