import Sm83.Bus
import Sm83.Fault
import Sm83.InterruptController

/-!
The processor with the unit it runs against, and the accesses that instructions are made of.
-/

set_option autoImplicit false

namespace Sm83

structure Processor (μ : Type) where
  bus : μ
  regs : Registers := .powerUp
  interrupts : InterruptController := {}
  deriving DecidableEq, Repr

namespace Processor

variable {μ : Type} [Bus μ]

/-- Registers and interrupts as after power-up, but with the zero flag clear; the bus is left alone. -/
def reset (p : Processor μ) : Processor μ :=
  { p with regs := Registers.powerUp.lower 0x80, interrupts := {} }

def readByte (p : Processor μ) (a : Word) : Byte × Processor μ :=
  let (v, bus) := Bus.read p.bus a
  (v, { p with bus })

def writeByte (p : Processor μ) (a : Word) (v : Byte) : Processor μ :=
  { p with bus := Bus.write p.bus a v }

def load (p : Processor μ) (t : Place) : Byte × Processor μ :=
  match t.register? with
  | some r => (p.regs.get r, p)
  | none => p.readByte p.regs.hl

def store (p : Processor μ) (t : Place) (v : Byte) : Processor μ :=
  match t.register? with
  | some r => { p with regs := p.regs.set r v }
  | none => p.writeByte p.regs.hl v

def setPair (p : Processor μ) (x : Pair) (v : Word) : Processor μ :=
  { p with regs := p.regs.setPair x v }

def setFlags (p : Processor μ) (f : Flags) : Processor μ :=
  { p with regs := p.regs.setFlags f }

def onAccumulator (p : Processor μ) (f : Byte → Flags → Byte × Flags) : Processor μ :=
  let (v, flags) := f (p.regs.get .a) p.regs.flags
  { p with regs := (p.regs.set .a v).setFlags flags }

def onPlace (p : Processor μ) (t : Place) (f : Byte → Flags → Byte × Flags) : Processor μ :=
  let (v, p) := p.load t
  let (w, flags) := f v p.regs.flags
  (p.setFlags flags).store t w

def jump (p : Processor μ) (a : Word) : Processor μ := { p with regs := { p.regs with pc := a } }

/-- The offset is signed and counts from the next instruction. -/
def jumpBy (p : Processor μ) (offset : Byte) : Processor μ := p.jump (p.regs.pc + offset.signExtend)

def push (p : Processor μ) (v : Word) : Processor μ :=
  let (sp, bus) := Bus.push p.bus p.regs.sp v
  { p with bus, regs := { p.regs with sp } }

def pop (p : Processor μ) : Word × Processor μ :=
  let (v, sp, bus) := Bus.pop p.bus p.regs.sp
  (v, { p with bus, regs := { p.regs with sp } })

def call (p : Processor μ) (a : Word) : Processor μ := (p.push p.regs.pc).jump a

def ret (p : Processor μ) : Processor μ :=
  let (a, p) := p.pop
  p.jump a

end Processor

end Sm83
