/-!
The life of a run as others see it.
-/

set_option autoImplicit false

namespace Sm83

/-- `stepping` holds a decoded instruction until a step is granted; `halted` follows a fault and only a reset
leaves it; `stopped` is the normal end. -/
inductive Mode where
  | idle | running | stepping | paused | halted | stopped
  deriving DecidableEq, Repr

namespace Mode

def isActive : Mode → Bool
  | .running | .stepping | .paused => true
  | .idle | .halted | .stopped => false

def name : Mode → String
  | .idle => "Idle"
  | .running => "Running"
  | .stepping => "Stepping"
  | .paused => "Paused"
  | .halted => "Halted"
  | .stopped => "Stopped"

end Mode

end Sm83
