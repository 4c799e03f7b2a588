import Sm83.Hex
import Sm83.Instruction.Map

/-!
The text of a form: the operation, then its operands, the target first. Immediate operands appear by kind:
d8 and d16 for data, a8 and a16 for addresses, r8 for signed offsets.
-/

set_option autoImplicit false

namespace Sm83

def Inherent.mnemonic : Inherent → String
  | .nop => "NOP"
  | .halt => "HALT"
  | .disableInterrupts => "DI"
  | .enableInterrupts => "EI"
  | .rlca => "RLCA"
  | .rrca => "RRCA"
  | .rla => "RLA"
  | .rra => "RRA"
  | .decimalAdjust => "DAA"
  | .complement => "CPL"
  | .setCarry => "SCF"
  | .flipCarry => "CCF"
  | .copy t s => "LD " ++ t.name ++ "," ++ s.name
  | .storeAt p => "LD " ++ p.name ++ ",A"
  | .loadAt p => "LD A," ++ p.name
  | .storeDevice => "LD (C),A"
  | .loadDevice => "LD A,(C)"
  | .increment t => "INC " ++ t.name
  | .decrement t => "DEC " ++ t.name
  | .incrementPair p => "INC " ++ p.name
  | .decrementPair p => "DEC " ++ p.name
  | .addToHl p => "ADD HL," ++ p.name
  | .alu op s => op.name ++ s.name
  | .push p => "PUSH " ++ p.name
  | .pop p => "POP " ++ p.name
  | .ret => "RET"
  | .retIf cc => "RET " ++ cc.name
  | .retInterrupt => "RETI"
  | .restart n => "RST " ++ Hex.render .upper 2 (8 * n) ++ "H"
  | .jumpHl => "JP HL"
  | .stackFromHl => "LD SP,HL"

def ByteForm.mnemonic : ByteForm → String
  | .stop => "STOP"
  | .set t => "LD " ++ t.name ++ ",d8"
  | .alu op => op.name ++ "d8"
  | .jump => "JR r8"
  | .jumpIf cc => "JR " ++ cc.name ++ ",r8"
  | .addToStack => "ADD SP,r8"
  | .hlFromStack => "LD HL,SP+r8"
  | .storeDevice => "LDH (a8),A"
  | .loadDevice => "LDH A,(a8)"
  | .extended => "PREFIX CB"

def WordForm.mnemonic : WordForm → String
  | .set p => "LD " ++ p.name ++ ",d16"
  | .storeStack => "LD (a16),SP"
  | .store => "LD (a16),A"
  | .load => "LD A,(a16)"
  | .jump => "JP a16"
  | .jumpIf cc => "JP " ++ cc.name ++ ",a16"
  | .call => "CALL a16"
  | .callIf cc => "CALL " ++ cc.name ++ ",a16"

def Form.mnemonic : Form → String
  | .hole => "UNKNOWN"
  | .inherent i => i.mnemonic
  | .byte i => i.mnemonic
  | .word i => i.mnemonic

def Opcode.mnemonic (op : Opcode) : String := op.form.mnemonic

def Operand.describe : Operand → String
  | .none => "None"
  | .byte n => s!"Byte({n})"
  | .word n => s!"Short({n})"

def Instruction.describe (i : Instruction) : String :=
  "Instruction \x7b mnemonic: \"" ++ i.form.mnemonic ++ "\", operand: " ++ i.operand.describe ++ " \x7d"

end Sm83
