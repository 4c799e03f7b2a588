import Sm83.Word

/-!
Five interrupt lines in order of priority. The controller selects a line; jumping to its vector is left to
the caller.
-/

set_option autoImplicit false

namespace Sm83

inductive Interrupt where
  | vblank | lcdStat | timer | serial | joypad
  deriving DecidableEq, Repr

namespace Interrupt

/-- Highest priority first. -/
def all : List Interrupt := [.vblank, .lcdStat, .timer, .serial, .joypad]

def line : Interrupt → Nat
  | .vblank => 0
  | .lcdStat => 1
  | .timer => 2
  | .serial => 3
  | .joypad => 4

def flag (i : Interrupt) : Byte := 1 <<< UInt8.ofNat i.line

def vector (i : Interrupt) : Word := 0x40 + 8 * UInt16.ofNat i.line

theorem mem_all (i : Interrupt) : i ∈ all := by cases i <;> decide

end Interrupt

structure InterruptController where
  masterEnable : Bool := false
  enableMask : Byte := 0
  pendingFlags : Byte := 0
  deriving DecidableEq, Repr

namespace InterruptController

def enable (c : InterruptController) : InterruptController := { c with masterEnable := true }

def disable (c : InterruptController) : InterruptController := { c with masterEnable := false }

def request (c : InterruptController) (i : Interrupt) : InterruptController :=
  { c with pendingFlags := c.pendingFlags ||| i.flag }

def acknowledge (c : InterruptController) (i : Interrupt) : InterruptController :=
  { c with pendingFlags := c.pendingFlags &&& ~~~i.flag }

def pending? (c : InterruptController) : Option Interrupt :=
  if c.masterEnable then Interrupt.all.find? fun i => c.enableMask.bit i.line && c.pendingFlags.bit i.line
  else none

def vector? (c : InterruptController) : Option Word := c.pending?.map Interrupt.vector

end InterruptController

end Sm83
