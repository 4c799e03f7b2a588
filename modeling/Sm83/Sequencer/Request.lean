import Sm83.Sequencer.Run

/-!
What can be asked of a sequencer. Requests are taken in the order in which they were made.
-/

set_option autoImplicit false

namespace Sm83

inductive Request where
  | start (debug : Bool)
  | stop
  | adjust (a : Adjustment)
  | reset
  | addBreakpoint (address : Word)
  | removeBreakpoint (address : Word)
  | queryBreakpoint (address : Word)
  | shutdown
  deriving DecidableEq, Repr

namespace Request

def render : Request → String
  | .start debug => s!"Start \x7b debug: {debug} \x7d"
  | .stop => "Stop"
  | .adjust .pause => "Pause"
  | .adjust .resume => "Resume"
  | .adjust .singleStep => "SingleStep"
  | .adjust (.sticky on) => s!"SetStickyStep({on})"
  | .reset => "Reset"
  | .addBreakpoint a => s!"AddBreakpoint({a})"
  | .removeBreakpoint a => s!"RemoveBreakpoint({a})"
  | .queryBreakpoint a => s!"QueryBreakpoint({a}, Sender \x7b .. \x7d)"
  | .shutdown => "Shutdown"

end Request

end Sm83
