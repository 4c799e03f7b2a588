/-!
Delays and intervals of a run, in microseconds. They let a person follow a run and bound how long a wait
sleeps; none of them is the timing of an instruction.
-/

set_option autoImplicit false

namespace Sm83

structure Pacing where
  run : Nat := 80000
  debug : Nat := 500000
  pausePoll : Nat := 400000
  stepPoll : Nat := 150000
  deriving DecidableEq, Repr

def Pacing.fast : Pacing := { run := 0, debug := 0, pausePoll := 5000, stepPoll := 5000 }

end Sm83
