import Sm83.Processor.Step
import Sm83.Sequencer.Mode
import Sm83.Sequencer.Request

/-!
What a sequencer lets others know: events in order, and a status that can be read at any time.
-/

set_option autoImplicit false

namespace Sm83

/-- Importance of a note, most important first. -/
inductive Level where
  | error | warn | info | debug | trace
  deriving DecidableEq, Repr

namespace Level

def rank : Level → Nat
  | .error => 1
  | .warn => 2
  | .info => 3
  | .debug => 4
  | .trace => 5

def name : Level → String
  | .error => "ERROR"
  | .warn => "WARN"
  | .info => "INFO"
  | .debug => "DEBUG"
  | .trace => "TRACE"

end Level

inductive Note where
  | opened
  | closed
  | dropped
  | taken (request : Request)
  | alreadyRunning
  | lockedOut
  | noRun (a : Adjustment)
  | breakpointSet (address : Word)
  | breakpointCleared (address : Word)
  | breakpointHit (address : Word)
  | decoded (op : Opcode)
  | faulted (fault : Fault) (regs : Registers)
  | showing (regs : Registers)
  | unimplemented (warning : String)
  | extended (code : Byte)
  | stoppedAt (pc : Word)
  | changed (before after : Mode)
  deriving DecidableEq, Repr

namespace Note

def level : Note → Level
  | .faulted .. => .error
  | .lockedOut | .noRun _ | .unimplemented _ => .warn
  | .decoded _ | .stoppedAt _ => .info
  | .opened | .closed | .dropped | .alreadyRunning | .breakpointSet _ | .breakpointCleared _
  | .breakpointHit _ | .showing _ | .changed .. => .debug
  | .taken _ | .extended _ => .trace

def text : Note → String
  | .opened => "CPU worker started"
  | .closed => "CPU worker exiting"
  | .dropped => "CPU worker has exited; control request dropped"
  | .taken r => "Control request: " ++ r.render
  | .alreadyRunning => "Start ignored: already running"
  | .lockedOut => "Start ignored: CPU is halted on a fault; reset first"
  | .noRun a => a.name ++ " ignored: no active run"
  | .breakpointSet a => "Breakpoint enabled at " ++ Hex.word a
  | .breakpointCleared a => "Breakpoint disabled at " ++ Hex.word a
  | .breakpointHit a => "Breakpoint hit at " ++ Hex.word a
  | .decoded op => "Instruction: " ++ op.mnemonic
  | .faulted f r =>
    s!"GB CPU locked: invalid opcode {Hex.byte f.opcode.code} at PC={Hex.word f.pc} ({r.render})"
  | .showing r => r.render
  | .unimplemented w => w
  | .extended code => "CB instruction: " ++ (Bitwise.ofCode code).mnemonic
  | .stoppedAt pc => s!"STOP at {Hex.word pc}; run ended"
  | .changed before after => s!"CPU state: {before.name} -> {after.name}"

end Note

inductive Event where
  | note (n : Note)
  | committed (regs : Registers)
  | alert (text : String)
  | entered (mode : Mode)
  | answer (address : Word) (enabled : Bool)
  deriving DecidableEq, Repr

/-- `committed` counts the instructions since the beginning or the last reset. -/
structure Status where
  mode : Mode := .idle
  regs : Registers
  fault : Option Fault := none
  committed : Nat := 0
  deriving DecidableEq, Repr

end Sm83
