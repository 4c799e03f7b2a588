import Sm83.Instruction.Timing
import Sm83.Processor.Perform

/-!
One instruction: decode the byte at the program counter, fetch its operand, perform it. The program counter
moves past the code and the operand before the instruction acts.
-/

set_option autoImplicit false

namespace Sm83

variable {μ : Type} [Bus μ]

def Form.fetch (m : μ) (a : Word) : Form → Instruction × μ
  | .hole => (.hole, m)
  | .inherent i => (.inherent i, m)
  | .byte i =>
    let (n, m) := Bus.read m a
    (.byte i n, m)
  | .word i =>
    let (n, m) := Bus.readWord m a
    (.word i n, m)

/-- An instruction that was carried out; `pc` is the address of its code. -/
structure Completion where
  pc : Word
  opcode : Opcode
  operand : Operand
  outcome : Outcome
  deriving DecidableEq, Repr

def Completion.warning? (r : Completion) : Option String :=
  match r.outcome with
  | .unimplemented =>
    some (s!"Instruction {r.opcode.mnemonic} ({Hex.byte r.opcode.code}) at {Hex.word r.pc} " ++
      "is not implemented; treated as NOP")
  | .proceed | .stop => none

namespace Processor

/-- The code at the program counter, which stays; a hole is a fault. -/
def decode (p : Processor μ) : Except Fault Opcode × Processor μ :=
  let (code, p) := p.readByte p.regs.pc
  let op : Opcode := ⟨code⟩
  (if op.isHole then .error ⟨op, p.regs.pc⟩ else .ok op, p)

/-- Carries out the code as if it stood at the program counter. -/
def execute (p : Processor μ) (op : Opcode) : Completion × Processor μ :=
  let pc := p.regs.pc
  let (i, bus) := op.form.fetch p.bus (pc + 1)
  let p := { p with bus }
  let p := p.jump (pc + 1 + UInt16.ofNat op.form.width)
  ({ pc, opcode := op, operand := i.operand, outcome := i.outcome }, i.perform p)

def step (p : Processor μ) : Except Fault Completion × Processor μ :=
  match p.decode with
  | (.error fault, p) => (.error fault, p)
  | (.ok op, p) =>
    let (r, p) := p.execute op
    (.ok r, p)

end Processor

end Sm83
