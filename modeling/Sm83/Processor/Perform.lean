import Sm83.Instruction.Bitwise
import Sm83.Processor.Basic

/-!
What each instruction does. The program counter already stands behind the operand, so it is the base of
relative jumps and the return address of calls.
-/

set_option autoImplicit false

namespace Sm83

variable {μ : Type} [Bus μ]

def Bitwise.perform (p : Processor μ) : Bitwise → Processor μ
  | .rotate r t => p.onPlace t r.apply
  | .test n t =>
    let (v, p) := p.load t
    p.setFlags (v.test n p.regs.flags).2
  | .reset n t =>
    let (v, p) := p.load t
    p.store t (v.clearBit n)
  | .set n t =>
    let (v, p) := p.load t
    p.store t (v.setBit n)

def Condition.met (p : Processor μ) (cc : Condition) : Bool := cc.holds p.regs.flags

def Pointer.follow (p : Processor μ) (x : Pointer) : Word × Processor μ :=
  let a := p.regs.pair x.pair
  (a, p.setPair x.pair (a + x.shift))

def deviceAddress (offset : Byte) : Word := Bus.devicePage + offset.toUInt16

def Inherent.perform (p : Processor μ) : Inherent → Processor μ
  | .nop | .halt => p
  | .disableInterrupts => { p with interrupts := p.interrupts.disable }
  | .enableInterrupts => { p with interrupts := p.interrupts.enable }
  | .rlca => p.onAccumulator Rotation.rlc.applyShort
  | .rrca => p.onAccumulator Rotation.rrc.applyShort
  | .rla => p.onAccumulator Rotation.rl.applyShort
  | .rra => p.onAccumulator Rotation.rr.applyShort
  | .decimalAdjust => p.onAccumulator Arithmetic.decimalAdjust
  | .complement => p.onAccumulator Arithmetic.complement
  | .setCarry => p.setFlags (Arithmetic.setCarry p.regs.flags)
  | .flipCarry => p.setFlags (Arithmetic.flipCarry p.regs.flags)
  | .copy t s =>
    let (v, p) := p.load s
    p.store t v
  | .storeAt x =>
    let (a, p) := x.follow p
    p.writeByte a (p.regs.get .a)
  | .loadAt x =>
    let (a, p) := x.follow p
    let (v, p) := p.readByte a
    p.store .a v
  | .storeDevice => p.writeByte (deviceAddress (p.regs.get .c)) (p.regs.get .a)
  | .loadDevice =>
    let (v, p) := p.readByte (deviceAddress (p.regs.get .c))
    p.store .a v
  | .increment t => p.onPlace t Arithmetic.increment
  | .decrement t => p.onPlace t Arithmetic.decrement
  | .incrementPair x => p.setPair x (p.regs.pair x + 1)
  | .decrementPair x => p.setPair x (p.regs.pair x - 1)
  | .addToHl x =>
    let (v, flags) := Arithmetic.addWord p.regs.hl (p.regs.pair x) p.regs.flags
    (p.setPair .hl v).setFlags flags
  | .alu op s =>
    let (v, p) := p.load s
    p.onAccumulator fun a f => op.apply a v f
  | .push x => p.push (p.regs.pair x)
  | .pop x =>
    let (v, p) := p.pop
    p.setPair x v
  | .ret => p.ret
  | .retIf cc => if cc.met p then p.ret else p
  | .retInterrupt =>
    let p := { p with interrupts := p.interrupts.enable }
    p.ret
  | .restart n => p.call (8 * UInt16.ofNat n)
  | .jumpHl => p.jump p.regs.hl
  | .stackFromHl => p.setPair .sp p.regs.hl

def ByteForm.perform (p : Processor μ) (n : Byte) : ByteForm → Processor μ
  | .stop => p
  | .set t => p.store t n
  | .alu op => p.onAccumulator fun a f => op.apply a n f
  | .jump => p.jumpBy n
  | .jumpIf cc => if cc.met p then p.jumpBy n else p
  | .addToStack =>
    let (v, flags) := Arithmetic.addOffset p.regs.sp n p.regs.flags
    (p.setPair .sp v).setFlags flags
  | .hlFromStack =>
    let (v, flags) := Arithmetic.addOffset p.regs.sp n p.regs.flags
    (p.setPair .hl v).setFlags flags
  | .storeDevice => p.writeByte (deviceAddress n) (p.regs.get .a)
  | .loadDevice =>
    let (v, p) := p.readByte (deviceAddress n)
    p.store .a v
  | .extended => (Bitwise.ofCode n).perform p

def WordForm.perform (p : Processor μ) (n : Word) : WordForm → Processor μ
  | .set x => p.setPair x n
  | .storeStack => { p with bus := Bus.writeWord p.bus n p.regs.sp }
  | .store => p.writeByte n (p.regs.get .a)
  | .load =>
    let (v, p) := p.readByte n
    p.store .a v
  | .jump => p.jump n
  | .jumpIf cc => if cc.met p then p.jump n else p
  | .call => p.call n
  | .callIf cc => if cc.met p then p.call n else p

namespace Instruction

def perform (p : Processor μ) : Instruction → Processor μ
  | .hole => p
  | .inherent i => i.perform p
  | .byte i n => i.perform p n
  | .word i n => i.perform p n

end Instruction

end Sm83
