import Sm83.Console.Command
import Sm83.Console.Options
import Sm83.Sequencer.Event

/-!
The conversation of a person with a sequencer. It runs over any link that can send a request, ask for a
breakpoint, read the published status and print; what is sent depends on the lines and on those answers only.
-/

set_option autoImplicit false

namespace Sm83

inductive Channel where
  | out | err
  deriving DecidableEq, Repr

structure Link (m : Type → Type) where
  send : Request → m Unit
  query : Word → m Bool
  status : m Status
  tell : Channel → String → m Unit

def Status.report (s : Status) : String :=
  s!"{s.mode.name} after {s.committed} instructions\n{s.regs.render}" ++
    match s.fault with
    | some f => "\nfault:\n" ++ f.message
    | none => ""

/-- Changes of mode go to the person as they come, and alerts with a heading. -/
def Event.message? : Event → Option (Channel × String)
  | .entered mode => some (.out, s!"[{mode.name}]")
  | .alert text => some (.err, "CPU halted\n" ++ text)
  | .note _ | .committed _ | .answer _ _ => none

namespace Link

variable {m : Type → Type} [Monad m]

def help : String :=
  "commands:\n" ++
  "  s          single step\n" ++
  "  c          continue (clear sticky step)\n" ++
  "  p / r      pause / resume\n" ++
  "  b ADDR     toggle breakpoint at hex ADDR\n" ++
  "  i          print state, registers and any fault\n" ++
  "  start      start a new run\n" ++
  "  stop       stop the current run\n" ++
  "  reset      reset the CPU and clear breakpoints\n" ++
  "  q          quit"

def toggle (l : Link m) (a : Word) : m Unit := do
  if ← l.query a then
    l.send (.removeBreakpoint a)
    l.tell .out s!"breakpoint {Hex.word a} off"
  else
    l.send (.addBreakpoint a)
    l.tell .out s!"breakpoint {Hex.word a} on"

def obey (l : Link m) (debug : Bool) : Command → m Unit
  | .step => l.send (.adjust .singleStep)
  | .proceed => l.send (.adjust (.sticky false))
  | .pause => l.send (.adjust .pause)
  | .resume => l.send (.adjust .resume)
  | .toggle a => l.toggle a
  | .info => do l.tell .out (← l.status).report
  | .start => l.send (.start debug)
  | .stop => l.send .stop
  | .reset => l.send .reset
  | .quit => pure ()

def greet (l : Link m) (o : Options) : m Unit := do
  o.breakpoints.forM fun a => l.send (.addBreakpoint a)
  l.send (.start o.debug)
  l.tell .out help

/-- Whether the conversation goes on after the line. -/
def feed (l : Link m) (debug : Bool) (line : String) : m Bool :=
  if line.toList.all isBlank then pure true
  else match Command.read line with
    | .ok .quit => pure false
    | .ok c => do
      l.obey debug c
      pure true
    | .error f => do
      l.tell .err f.message
      pure true

def feedAll (l : Link m) (debug : Bool) : List String → m Unit
  | [] => pure ()
  | line :: lines => do
    if ← l.feed debug line then l.feedAll debug lines

def leave (l : Link m) : m Unit := l.send .shutdown

/-- The whole conversation; the end of the lines is as good as a quit. -/
def converse (l : Link m) (o : Options) (lines : List String) : m Unit := do
  l.greet o
  l.feedAll o.debug lines
  l.leave

end Link

end Sm83
