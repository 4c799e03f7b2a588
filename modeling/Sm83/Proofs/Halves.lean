import Sm83.Bus.Ram
import Sm83.Processor.Perform
import Sm83.Proofs.Columns

/-!
Addition to words by two additions of bytes: the low halves first, then the high halves with the carry. What is told of
the flags on bits of a word is told by the second addition; an offset with a sign is extended by it, and the flags are
those of the first.
-/

set_option autoImplicit false

namespace Sm83

namespace Word

theorem toNat_mod (w : Word) : w.toNat % 4096 = 256 * (w.high.toNat % 16) + w.low.toNat := by
  have h := w.toNat_halves
  have hl := w.low.toNat_lt
  omega

theorem low_addCarry (a b : Word) :
    let l := Arithmetic.addCarry a.low b.low false
    l.1.toNat + 256 * l.2.carry.toNat = a.low.toNat + b.low.toNat :=
  Arithmetic.toNat_addCarry a.low b.low false

end Word

namespace Byte

theorem signExtend_toInt : ∀ e : Byte, (e.signExtend.toNat : Int) = e.toInt8.toInt % 65536 :=
  forall_of_ofNat (by decide +kernel)

/-- Only -128 has no negative among the offsets. -/
theorem signExtend_add_neg : ∀ e : Byte, e.signExtend + (-e).signExtend = 0 ↔ e ≠ 0x80 :=
  forall_of_ofNat (by decide +kernel)

end Byte

namespace Registers

/-- Two additions of bytes, the second with the carry of the first: the word that the results make, and the registers
at the end. -/
def addHalves (r : Registers) (a b : Word) : Word × Registers :=
  let l := r.flagged (Arithmetic.add a.low b.low)
  let h := l.2.flagged (Arithmetic.addWithCarry a.high b.high)
  (.ofBytes h.1 l.1, h.2)

theorem addHalves_eq (r : Registers) (a b : Word) :
    let l := Arithmetic.addCarry a.low b.low false
    let h := Arithmetic.addCarry a.high b.high l.2.carry
    (r.addHalves a b).1 = .ofBytes h.1 l.1 ∧ (r.addHalves a b).2.flags = h.2 := by
  simp only [addHalves, Arithmetic.add, Arithmetic.addWithCarry, fst_flagged, flags_flagged, and_self]

theorem fst_addHalves (r : Registers) (a b : Word) : (r.addHalves a b).1 = a + b := by
  obtain ⟨hs, -⟩ := r.addHalves_eq a b
  have hl := Word.low_addCarry a b
  generalize Arithmetic.addCarry a.low b.low false = l at hl hs
  have hh := Arithmetic.toNat_addCarry a.high b.high l.2.carry
  generalize Arithmetic.addCarry a.high b.high l.2.carry = h at hh hs
  have h0 := h.1.toNat_lt
  have h1 := l.1.toNat_lt
  have ha := a.toNat_halves
  have hb := b.toNat_halves
  refine UInt16.toNat_inj.1 ?_
  rw [hs, UInt16.toNat_add, Word.toNat_ofBytes]
  omega

theorem flags_addHalves (r : Registers) (a b : Word) :
    let f := (r.addHalves a b).2.flags
    f.halfCarry = decide (4095 < a.toNat % 4096 + b.toNat % 4096) ∧ f.carry = decide (65535 < a.toNat + b.toNat) := by
  intro f
  obtain ⟨-, hs⟩ := r.addHalves_eq a b
  have hl := Word.low_addCarry a b
  generalize Arithmetic.addCarry a.low b.low false = l at hl hs
  have h1 := l.1.toNat_lt
  simp only [f, hs, Arithmetic.addCarry, decide_eq_decide]
  -- bits 11 and 15 of the words are bits 3 and 7 of their high halves, to which the low sum carries
  rw [a.toNat_mod, b.toNat_mod, a.toNat_halves, b.toNat_halves]
  omega

theorem flags_addWord (r : Registers) (a b : Word) :
    let f := (r.addHalves a b).2.flags
    (r.flagged (Arithmetic.addWord a b)).2.flags =
      { zero := r.flags.zero, subtract := false, halfCarry := f.halfCarry, carry := f.carry } := by
  intro f
  obtain ⟨hh, hc⟩ := r.flags_addHalves a b
  rw [flags_flagged, hh, hc]
  rfl

theorem flags_addOffset (r : Registers) (a : Word) (e : Byte) :
    let f := (r.flagged (Arithmetic.add a.low e)).2.flags
    (r.flagged (Arithmetic.addOffset a e)).2.flags =
      { zero := false, subtract := false, halfCarry := f.halfCarry, carry := f.carry } := by
  intro f
  have ha := a.toNat_halves
  have hl := a.low.toNat_lt
  have hh : a.toNat % 16 = a.low.toNat % 16 := by omega
  have hc : a.toNat % 256 = a.low.toNat := by omega
  simp only [f, flags_flagged, Arithmetic.addOffset, Arithmetic.add, Arithmetic.addCarry, hh, hc, Bool.toNat_false,
    Nat.add_zero]

end Registers

namespace ByteForm

variable {μ : Type} [Bus μ] (p : Processor μ) (e : Byte)

theorem sp_addToStack : (ByteForm.addToStack.perform p e).regs.sp = p.regs.sp + e.signExtend :=
  (p.regs.setPair .sp _).sp_set .f _

theorem hl_hlFromStack : (ByteForm.hlFromStack.perform p e).regs.hl = p.regs.sp + e.signExtend := rfl

end ByteForm

/-- Addition to a word is addition to its halves, and so is the addition of an offset, whose high half is its sign. The
flags of the one are those of the high halves, with zero kept; the flags of the other those of the low halves. An
offset is taken back by its negative, if it has one, and HL receives from the stack pointer what the stack pointer
itself would. -/
theorem Registers.words_by_halves {μ : Type} [Bus μ] (r : Registers) (a b : Word) (e : Byte) (p q : Processor μ) :
    (let s := r.flagged (Arithmetic.addWord a b)
      let t := r.addHalves a b
      s.1 = t.1 ∧ s.2.flags =
        { zero := r.flags.zero, subtract := false, halfCarry := t.2.flags.halfCarry, carry := t.2.flags.carry }) ∧
    (let s := r.flagged (Arithmetic.addOffset a e)
      let t := r.addHalves a (.ofBytes (if e.bit 7 then 0xFF else 0x00) e)
      let l := r.flagged (Arithmetic.add a.low e)
      s.1 = t.1 ∧ (s.1.toNat : Int) = (a.toNat + e.toInt8.toInt) % 65536 ∧
        s.2.flags =
          { zero := false, subtract := false, halfCarry := l.2.flags.halfCarry, carry := l.2.flags.carry }) ∧
    ((ByteForm.addToStack.perform (ByteForm.addToStack.perform p e) (-e)).regs.sp = p.regs.sp ↔ e ≠ 0x80) ∧
    (p.regs.sp = q.regs.sp →
      let s := ByteForm.addToStack.perform p e
      let t := ByteForm.hlFromStack.perform q e
      s.regs.sp = t.regs.hl ∧ s.regs.get .f = t.regs.get .f) := by
  refine ⟨⟨(r.fst_addHalves a b).symm, r.flags_addWord a b⟩,
    ⟨(r.fst_addHalves a e.signExtend).symm, ?_, r.flags_addOffset a e⟩, ?_, fun h => ⟨?_, ?_⟩⟩
  · have he := e.signExtend_toInt
    have hs : (a + e.signExtend).toNat = (a.toNat + e.signExtend.toNat) % 65536 := UInt16.toNat_add _ _
    rw [fst_flagged, Arithmetic.addOffset, hs]
    omega
  · rw [ByteForm.sp_addToStack, ByteForm.sp_addToStack, UInt16.add_assoc, ← Byte.signExtend_add_neg]
    exact UInt16.add_eq_left
  · rw [ByteForm.sp_addToStack, ByteForm.hl_hlFromStack, h]
  · calc (ByteForm.addToStack.perform p e).regs.get .f
      _ = (Arithmetic.addOffset p.regs.sp e p.regs.flags).2.toByte := get_setFlags _ _
      _ = (Arithmetic.addOffset q.regs.sp e q.regs.flags).2.toByte := by rw [h]; rfl
      _ = (ByteForm.hlFromStack.perform q e).regs.get .f := (get_setFlags _ _).symm

/-- Sums through zero, and a stack pointer that goes below it and comes back. -/
theorem Ram.words_by_halves_through_zero :
    let p : Processor Ram := { bus := Ram.empty, regs := { Registers.powerUp with sp := 0x0001 } }
    let q : Processor Ram := { p with regs := { p.regs with af := 0x1200, hl := 0x4000 } }
    p.regs.sp = q.regs.sp ∧ (p.regs.addHalves 0x8FFF 0x7001).1 = 0x0000 ∧
      (p.regs.flagged (Arithmetic.addOffset 0x8FFF 0xFE)).1.toNat = 0x8FFD ∧
      (ByteForm.hlFromStack.perform q 0xFE).regs.hl = 0xFFFF ∧
      (ByteForm.addToStack.perform (ByteForm.addToStack.perform p 0xFE) 0x02).regs.sp = 0x0001 := by
  intro p q
  obtain ⟨⟨hw, -⟩, ⟨-, ho, -⟩, hs, hl⟩ := Registers.words_by_halves p.regs 0x8FFF 0x7001 0xFE p q
  have ht : (ByteForm.addToStack.perform p 0xFE).regs.sp = 0xFFFF := by decide
  exact ⟨rfl, hw.symm, Int.ofNat_inj.1 (ho.trans (by decide)), (hl rfl).1.symm.trans ht, hs.2 (by decide)⟩

end Sm83
