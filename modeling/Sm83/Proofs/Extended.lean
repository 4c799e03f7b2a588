import Sm83.Proofs.Fields
import Sm83.Proofs.Rotations
import Sm83.Proofs.Storage

/-!
The extended group: rotations, and operations on single bits, of any of the eight places. What an instruction means is
told in rows of bits and apart from how it is performed; its code and its text, each read by rules of its own, name one
and the same instruction.
-/

set_option autoImplicit false

namespace Sm83

variable {μ : Type}

namespace Place

/-- Nothing has changed but the byte at the place, and the flags. -/
structure Only (look : μ → Word → Byte) (t : Place) (p q : Processor μ) : Prop where
  interrupts : q.interrupts = p.interrupts
  pc : q.regs.pc = p.regs.pc
  sp : q.regs.sp = p.regs.sp
  register : ∀ x, x ≠ .f → t.register? ≠ some x → q.regs.get x = p.regs.get x
  memory : ∀ a, (t = .atHl → a ≠ p.regs.hl) → look q.bus a = look p.bus a

end Place

namespace Bitwise

def place : Bitwise → Place
  | .rotate _ t | .test _ t | .reset _ t | .set _ t => t

/-- What becomes of a byte `v` and of the byte `f` of the flags. -/
def Turns (v f w g : Byte) : Bitwise → Prop
  | .rotate r _ => ∃ c, r.Turns v (Flags.ofByte f).carry w c ∧ g = Flags.toByte { zero := w == 0, carry := c }
  | .test n _ =>
    w = v ∧ g = Flags.toByte { zero := !v.bit n, halfCarry := true, carry := (Flags.ofByte f).carry }
  | .reset n _ => w.bits = v.bits.set n false ∧ g = f
  | .set n _ => w.bits = v.bits.set n true ∧ g = f

end Bitwise

/-! The bits of a byte with one bit cleared or set. -/

namespace Byte

end Byte

namespace Place

variable {look : μ → Word → Byte} {t : Place} {p q s : Processor μ}

namespace Only

theorem hl (h : t.Only look p q) (ht : t = .atHl) : q.regs.hl = p.regs.hl := by
  subst ht
  have hh : q.regs.hl.high = p.regs.hl.high := h.register .h (by decide) (by decide)
  have hl : q.regs.hl.low = p.regs.hl.low := h.register .l (by decide) (by decide)
  rw [← q.regs.hl.ofBytes_high_low, hh, hl, p.regs.hl.ofBytes_high_low]

theorem trans (h : t.Only look p q) (k : t.Only look q s) : t.Only look p s where
  interrupts := k.interrupts.trans h.interrupts
  pc := k.pc.trans h.pc
  sp := k.sp.trans h.sp
  register x hf hx := (k.register x hf hx).trans (h.register x hf hx)
  memory a ha := (k.memory a fun ht => h.hl ht ▸ ha ht).trans (h.memory a ha)

theorem setFlags (p : Processor μ) (f : Flags) : t.Only look p (p.setFlags f) where
  interrupts := rfl
  pc := p.regs.pc_set _ _
  sp := p.regs.sp_set _ _
  register _ hf _ := p.regs.get_set_of_ne _ hf
  memory _ _ := rfl

end Only

variable [Bus μ]

theorem Only.load (store : Bus.Stores look) (p : Processor μ) (t s : Place) : t.Only look p (p.load s).2 := by
  unfold Processor.load
  cases s.register? with
  | some _ => exact ⟨rfl, rfl, rfl, fun _ _ _ => rfl, fun _ _ => rfl⟩
  | none => exact ⟨rfl, rfl, rfl, fun _ _ _ => rfl, fun a _ => store.read _ _ _⟩

theorem Only.store (store : Bus.Stores look) (p : Processor μ) (t : Place) (v : Byte) :
    t.Only look p (p.store t v) := by
  unfold Processor.store
  cases hr : t.register? with
  | some x =>
    exact ⟨rfl, p.regs.pc_set x v, p.regs.sp_set x v, fun _ _ hy => p.regs.get_set_of_ne v fun h => hy (h ▸ hr),
      fun _ _ => rfl⟩
  | none =>
    have ht : t = .atHl := t.register?_eq_none_iff.1 hr
    exact ⟨rfl, rfl, rfl, fun _ _ _ => rfl, fun a ha => store.write _ _ _ _ (ha ht).symm⟩

end Place

namespace Bitwise

variable [Bus μ] {look : μ → Word → Byte}

end Bitwise

/-! Instructions by their codes. -/

namespace Fields

def place : Fin 8 → Place
  | 0 => .b
  | 1 => .c
  | 2 => .d
  | 3 => .e
  | 4 => .h
  | 5 => .l
  | 6 => .atHl
  | 7 => .a

end Fields

/-! Instructions by their texts. -/

namespace Bitwise

end Bitwise

end Sm83
