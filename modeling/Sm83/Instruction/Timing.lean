import Sm83.Instruction.Mnemonic

/-!
Clock cycles of a form. A conditional jump, call or return counts as one that is not taken, and the code that
announces the extended group counts alone. Nothing waits for these cycles.
-/

set_option autoImplicit false

namespace Sm83

/-- The cost of reaching the place beyond that of a register. -/
def Place.extra : Place → Nat
  | .atHl => 4
  | _ => 0

def Inherent.cycles : Inherent → Nat
  | .nop | .halt | .disableInterrupts | .enableInterrupts => 4
  | .rlca | .rrca | .rla | .rra => 4
  | .decimalAdjust | .complement | .setCarry | .flipCarry => 4
  | .copy t s => 4 + t.extra + s.extra
  | .storeAt _ | .loadAt _ | .storeDevice | .loadDevice => 8
  | .increment t | .decrement t => 4 + 2 * t.extra
  | .incrementPair _ | .decrementPair _ | .addToHl _ => 8
  | .alu _ s => 4 + s.extra
  | .push _ => 16
  | .pop _ => 12
  | .ret | .retInterrupt | .restart _ => 16
  | .retIf _ => 8
  | .jumpHl => 4
  | .stackFromHl => 8

def ByteForm.cycles : ByteForm → Nat
  | .stop | .extended => 4
  | .set t => 8 + t.extra
  | .alu _ | .jumpIf _ => 8
  | .jump | .hlFromStack | .storeDevice | .loadDevice => 12
  | .addToStack => 16

def WordForm.cycles : WordForm → Nat
  | .set _ | .jumpIf _ | .callIf _ => 12
  | .store | .load | .jump => 16
  | .storeStack => 20
  | .call => 24

def Form.cycles : Form → Nat
  | .hole => 0
  | .inherent i => i.cycles
  | .byte i => i.cycles
  | .word i => i.cycles

def Opcode.cycles (op : Opcode) : Nat := op.form.cycles

def Opcode.describe (op : Opcode) : String :=
  s!"Opcode \x7b opcode: {Hex.byte op.code}, mnemonic: \"" ++ op.mnemonic ++
    s!"\", operand_count: {op.form.width}, cycles: {op.cycles} \x7d"

end Sm83
