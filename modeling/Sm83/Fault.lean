import Sm83.Hex
import Sm83.Instruction.Map

/-!
The one failure of the processor: the byte at the program counter is a hole.
-/

set_option autoImplicit false

namespace Sm83

structure Fault where
  opcode : Opcode
  pc : Word
  deriving DecidableEq, Repr

def Fault.message (f : Fault) : String :=
  s!"INSTRUCTION: {Hex.byte f.opcode.code}\nAt ROM Offset: {Hex.word f.pc}"

end Sm83
