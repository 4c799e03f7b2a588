import Sm83.Proofs.Fetch

/-!
What every instruction is made of. Whatever it does, it goes through the bus, through the setters of the register
file and through jumps; beside that, three instructions set or clear the master enable of the interrupts, and no
instruction touches the rest of the controller. A fact that the few parts keep is kept by every instruction.
-/

set_option autoImplicit false

namespace Sm83

variable {μ : Type}

/-! The master enable that an instruction leaves behind, where it has one of its own. -/

def Inherent.master? : Inherent → Option Bool
  | .enableInterrupts | .retInterrupt => some true
  | .disableInterrupts => some false
  | _ => none

def Form.master? : Form → Option Bool
  | .inherent i => i.master?
  | .hole | .byte _ | .word _ => none

/-- The three codes that change the master enable: EI, RETI and DI. -/
theorem Opcode.master?_eq (op : Opcode) : op.form.master? =
    if op.code = 0xFB ∨ op.code = 0xD9 then some true else if op.code = 0xF3 then some false else none := by
  have h : ∀ code : Byte, (⟨code⟩ : Opcode).form.master? =
      if code = 0xFB ∨ code = 0xD9 then some true else if code = 0xF3 then some false else none :=
    Byte.forall_of_ofNat (by decide +kernel)
  exact h op.code

def InterruptController.govern (c : InterruptController) (master? : Option Bool) : InterruptController :=
  { c with masterEnable := master?.getD c.masterEnable }

namespace Processor

def govern (p : Processor μ) (master? : Option Bool) : Processor μ :=
  { p with interrupts := p.interrupts.govern master? }

/-- `q` comes from `p` by traffic on the bus, through the setters of the registers and by jumps. -/
inductive Alters (p : Processor μ) : Processor μ → Prop where
  | refl : Alters p p
  | bus {q : Processor μ} (m : μ) : Alters p q → Alters p { q with bus := m }
  | set {q : Processor μ} (x : Reg8) (v : Byte) : Alters p q → Alters p { q with regs := q.regs.set x v }
  | setPair {q : Processor μ} (x : Pair) (v : Word) : Alters p q → Alters p (q.setPair x v)
  | jump {q : Processor μ} (a : Word) : Alters p q → Alters p (q.jump a)

namespace Alters

variable {p q r : Processor μ}

theorem trans (h : Alters p q) (k : Alters q r) : Alters p r := by
  induction k with
  | refl => exact h
  | bus m _ ih => exact ih.bus m
  | set x v _ ih => exact ih.set x v
  | setPair x v _ ih => exact ih.setPair x v
  | jump a _ ih => exact ih.jump a

theorem interrupts (h : Alters p q) : q.interrupts = p.interrupts := by
  induction h with
  | refl => rfl
  | _ => assumption

theorem govern (h : Alters p q) (master? : Option Bool) : Alters (p.govern master?) (q.govern master?) := by
  induction h with
  | refl => exact .refl
  | bus m _ ih => exact ih.bus m
  | set x v _ ih => exact ih.set x v
  | setPair x v _ ih => exact ih.setPair x v
  | jump a _ ih => exact ih.jump a

theorem setFlags (h : Alters p q) (f : Flags) : Alters p (q.setFlags f) := h.set .f f.toByte

theorem onAccumulator (h : Alters p q) (f : Byte → Flags → Byte × Flags) : Alters p (q.onAccumulator f) :=
  (h.set .a _).setFlags _

theorem jumpBy (h : Alters p q) (n : Byte) : Alters p (q.jumpBy n) := h.jump _

theorem follow (h : Alters p q) (x : Pointer) : Alters p (x.follow q).2 := h.setPair _ _

variable [Bus μ]

theorem readByte (h : Alters p q) (a : Word) : Alters p (q.readByte a).2 := h.bus _

theorem writeByte (h : Alters p q) (a : Word) (v : Byte) : Alters p (q.writeByte a v) := h.bus _

theorem load (h : Alters p q) (t : Place) : Alters p (q.load t).2 := by
  cases t with
  | atHl => exact h.readByte _
  | _ => exact h

theorem store (h : Alters p q) (t : Place) (v : Byte) : Alters p (q.store t v) := by
  cases t with
  | atHl => exact h.writeByte _ v
  | _ => exact h.set _ v

theorem onPlace (h : Alters p q) (t : Place) (f : Byte → Flags → Byte × Flags) : Alters p (q.onPlace t f) :=
  ((h.load t).setFlags _).store t _

theorem push (h : Alters p q) (v : Word) : Alters p (q.push v) := (h.bus _).setPair .sp _

theorem pop (h : Alters p q) : Alters p q.pop.2 := (h.bus _).setPair .sp _

theorem call (h : Alters p q) (a : Word) : Alters p (q.call a) := (h.push _).jump a

theorem ret (h : Alters p q) : Alters p q.ret := h.pop.jump _

end Alters

end Processor

variable [Bus μ]

open Processor

/-! One case for each instruction. -/

theorem Bitwise.alters (p : Processor μ) (i : Bitwise) : Alters p (i.perform p) := by
  cases i with simp only [perform]
  | rotate r t => exact Alters.refl.onPlace t _
  | test n t => exact (Alters.refl.load t).setFlags _
  | reset n t => exact (Alters.refl.load t).store t _
  | set n t => exact (Alters.refl.load t).store t _

theorem Inherent.alters (p : Processor μ) (i : Inherent) : Alters (p.govern i.master?) (i.perform p) := by
  cases i with simp only [perform]
  | nop | halt | disableInterrupts | enableInterrupts => exact .refl
  | rlca | rrca | rla | rra | decimalAdjust | complement => exact Alters.refl.onAccumulator _
  | setCarry | flipCarry => exact Alters.refl.setFlags _
  | copy t s => exact (Alters.refl.load s).store t _
  | storeAt x => exact (Alters.refl.follow x).writeByte _ _
  | loadAt x => exact ((Alters.refl.follow x).readByte _).store .a _
  | storeDevice => exact Alters.refl.writeByte _ _
  | loadDevice => exact (Alters.refl.readByte _).store .a _
  | increment t | decrement t => exact Alters.refl.onPlace t _
  | incrementPair x | decrementPair x => exact Alters.refl.setPair x _
  | addToHl x => exact (Alters.refl.setPair .hl _).setFlags _
  | alu op s => exact (Alters.refl.load s).onAccumulator _
  | push x => exact Alters.refl.push _
  | pop x => exact Alters.refl.pop.setPair x _
  | ret | retInterrupt => exact Alters.refl.ret
  | retIf cc =>
    split
    · exact Alters.refl.ret
    · exact .refl
  | restart n => exact Alters.refl.call _
  | jumpHl => exact Alters.refl.jump _
  | stackFromHl => exact Alters.refl.setPair .sp _

theorem ByteForm.alters (p : Processor μ) (i : ByteForm) (n : Byte) : Alters p (i.perform p n) := by
  cases i with simp only [perform]
  | stop => exact .refl
  | set t => exact Alters.refl.store t n
  | alu op => exact Alters.refl.onAccumulator _
  | jump => exact Alters.refl.jumpBy n
  | jumpIf cc =>
    split
    · exact Alters.refl.jumpBy n
    · exact .refl
  | addToStack => exact (Alters.refl.setPair .sp _).setFlags _
  | hlFromStack => exact (Alters.refl.setPair .hl _).setFlags _
  | storeDevice => exact Alters.refl.writeByte _ _
  | loadDevice => exact (Alters.refl.readByte _).store .a _
  | extended => exact (Bitwise.ofCode n).alters p

theorem WordForm.alters (p : Processor μ) (i : WordForm) (n : Word) : Alters p (i.perform p n) := by
  cases i with simp only [perform]
  | set x => exact Alters.refl.setPair x n
  | storeStack => exact Alters.refl.bus _
  | store => exact Alters.refl.writeByte n _
  | load => exact (Alters.refl.readByte n).store .a _
  | jump => exact Alters.refl.jump n
  | jumpIf cc =>
    split
    · exact Alters.refl.jump n
    · exact .refl
  | call => exact Alters.refl.call n
  | callIf cc =>
    split
    · exact Alters.refl.call n
    · exact .refl

theorem Instruction.alters (p : Processor μ) (i : Instruction) :
    Alters (p.govern i.form.master?) (i.perform p) := by
  cases i with
  | hole => exact .refl
  | inherent i => exact i.alters p
  | byte i n => exact i.alters p n
  | word i n => exact i.alters p n

@[simp] theorem Form.form_fetch (f : Form) (m : μ) (a : Word) : (f.fetch m a).1.form = f := by
  cases f <;> rfl

namespace Processor

theorem alters_execute (p : Processor μ) (op : Opcode) :
    Alters (p.govern op.form.master?) (p.execute op).2 := by
  have h := Instruction.alters (({ p with bus := (op.form.fetch p.bus (p.regs.pc + 1)).2 } : Processor μ).jump
    (p.regs.pc + 1 + UInt16.ofNat op.form.width)) (op.form.fetch p.bus (p.regs.pc + 1)).1
  rw [Form.form_fetch] at h
  -- the operand is fetched and the program counter moved before the instruction acts
  exact (((Alters.refl.bus _).jump _).govern _).trans h

theorem alters_step (p : Processor μ) : Alters (p.govern p.next.form.master?) p.step.2 := by
  cases h : p.next.isHole with
  | true =>
    have hf : p.next.form = .hole := by simpa [Opcode.isHole] using h
    rw [step_of_hole h, hf]
    exact Alters.refl.bus _
  | false =>
    rw [step_of_next h]
    exact ((Alters.refl.bus _).govern _).trans (alters_execute _ _)

end Processor

end Sm83
