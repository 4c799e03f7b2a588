import Sm83.Instruction.Operand

/-!
The instructions by the width of the immediate operand that follows the code: none, a byte, or a word.
An instruction is a form together with an operand of its width, so no operand can have the wrong size.
-/

set_option autoImplicit false

namespace Sm83

inductive Inherent where
  | nop
  | halt
  | disableInterrupts
  | enableInterrupts
  | rlca | rrca | rla | rra
  | decimalAdjust
  | complement
  | setCarry
  | flipCarry
  | copy (target source : Place)
  | storeAt (pointer : Pointer)
  | loadAt (pointer : Pointer)
  | storeDevice
  | loadDevice
  | increment (target : Place)
  | decrement (target : Place)
  | incrementPair (pair : Pair)
  | decrementPair (pair : Pair)
  | addToHl (pair : Pair)
  | alu (op : AluOp) (source : Place)
  | push (pair : Pair)
  | pop (pair : Pair)
  | ret
  | retIf (condition : Condition)
  | retInterrupt
  | restart (slot : Fin 8)
  | jumpHl
  | stackFromHl
  deriving DecidableEq, Repr

inductive ByteForm where
  | stop
  | set (target : Place)
  | alu (op : AluOp)
  | jump
  | jumpIf (condition : Condition)
  | addToStack
  | hlFromStack
  | storeDevice
  | loadDevice
  | extended
  deriving DecidableEq, Repr

inductive WordForm where
  | set (pair : Pair)
  | storeStack
  | store
  | load
  | jump
  | jumpIf (condition : Condition)
  | call
  | callIf (condition : Condition)
  deriving DecidableEq, Repr

/-- A hole is a code without an instruction. -/
inductive Form where
  | hole
  | inherent (i : Inherent)
  | byte (i : ByteForm)
  | word (i : WordForm)
  deriving DecidableEq, Repr

def Form.width : Form → Nat
  | .hole | .inherent _ => 0
  | .byte _ => 1
  | .word _ => 2

inductive Operand where
  | none
  | byte (n : Byte)
  | word (n : Word)
  deriving DecidableEq, Repr

inductive Instruction where
  | hole
  | inherent (i : Inherent)
  | byte (i : ByteForm) (n : Byte)
  | word (i : WordForm) (n : Word)
  deriving DecidableEq, Repr

/-- What an instruction asks of whoever runs it; an unimplemented one has done nothing. -/
inductive Outcome where
  | proceed
  | stop
  | unimplemented
  deriving DecidableEq, Repr

namespace Instruction

def form : Instruction → Form
  | .hole => .hole
  | .inherent i => .inherent i
  | .byte i _ => .byte i
  | .word i _ => .word i

def operand : Instruction → Operand
  | .hole | .inherent _ => .none
  | .byte _ n => .byte n
  | .word _ n => .word n

def outcome : Instruction → Outcome
  | .hole | .inherent .halt => .unimplemented
  | .byte .stop _ => .stop
  | _ => .proceed

end Instruction

end Sm83
