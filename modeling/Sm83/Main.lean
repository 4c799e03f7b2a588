import Sm83.Bus.Ram
import Sm83.Console.Dialogue
import Sm83.Console.FileProblem
import Sm83.Pacing
import Sm83.Sequencer.Basic

/-!
The program: reads an image, runs it on flat memory in a task of its own, and talks to the person at the
terminal until the input ends or they quit. All decisions are made elsewhere; here requests travel through a
shared inbox and the sequencer is slowed down for the eye.
-/

set_option autoImplicit false

namespace Sm83.Main

structure Desk where
  inbox : IO.Ref (List Request)
  answers : IO.Ref (List Bool)
  published : IO.Ref Status

def Desk.take (d : Desk) : IO (Option Request) :=
  d.inbox.modifyGet fun
    | [] => (none, [])
    | r :: rest => (some r, rest)

def print (c : Channel) (text : String) : IO Unit :=
  match c with
  | .out => do
    let out ← IO.getStdout
    out.putStrLn text
    out.flush
  | .err => do
    let err ← IO.getStderr
    err.putStrLn text
    err.flush

/-- How long the instruction committed by these events is held up before anyone learns of it. -/
def delay (p : Pacing) (events : List Event) : Nat :=
  let committed := events.any fun
    | .committed _ => true
    | _ => false
  let shown := events.any fun
    | .note (.showing _) => true
    | _ => false
  if committed then (if shown then p.debug else p.run) else 0

def interval (p : Pacing) (phase : Phase) : Nat :=
  match phase with
  | .held _ .pause => p.pausePoll
  | .rest | .gather | .held _ .step | .gone => p.stepPoll

def sleep (micros : Nat) : IO Unit := IO.sleep (UInt32.ofNat (micros / 1000))

def tell (d : Desk) : Event → IO Unit
  | .answer _ enabled => d.answers.modify (· ++ [enabled])
  | e =>
    match e.message? with
    | some (c, text) => print c text
    | none => pure ()

partial def work (d : Desk) (p : Pacing) (s : Sequencer Ram) : IO (Sequencer Ram) := do
  match s.phase with
  | .gone => return s
  | phase =>
    let offer ← d.take
    if offer.isNone && phase != .gather then
      sleep (min (interval p phase) 5000)
      work d p s
    else
      let r := s.react offer
      sleep (delay p r.events)
      d.published.set r.next.published
      r.events.forM (tell d)
      work d p r.next

partial def awaitAnswer (d : Desk) : IO Bool := do
  let answer ← d.answers.modifyGet fun
    | [] => (none, [])
    | b :: rest => (some b, rest)
  match answer with
  | some b => return b
  | none =>
    IO.sleep 1
    awaitAnswer d

def link (d : Desk) : Link IO where
  send r := d.inbox.modify (· ++ [r])
  query a := do
    d.inbox.modify (· ++ [.queryBreakpoint a])
    awaitAnswer d
  status := d.published.get
  tell := print

partial def talk (l : Link IO) (debug : Bool) (input : IO.FS.Stream) : IO (Option Failure) := do
  match ← input.getLine.toBaseIO with
  | .error _ => return some (.unreadableInput "stream did not contain valid UTF-8")
  | .ok "" => return none
  | .ok line => if ← l.feed debug line then talk l debug input else return none

def converse (image : List Byte) (o : Options) : IO (Option Failure) := do
  let p : Processor Ram := { bus := .ofImage image }
  let s := Sequencer.ofProcessor p
  let desk : Desk :=
    { inbox := ← IO.mkRef [], answers := ← IO.mkRef [], published := ← IO.mkRef s.published }
  let pacing : Pacing := if o.fast then .fast else {}
  let task ← IO.asTask (work desk pacing s) .dedicated
  let l := link desk
  l.greet o
  let failure ← talk l o.debug (← IO.getStdin)
  l.leave
  let s ← IO.ofExcept task.get
  if failure.isNone then print .out s.processor.regs.render
  return failure

/-- The number the system gives a failure to read a file; it comes with either sign. -/
def number : IO.Error → UInt32
  | .noFileOrDirectory _ code _ | .permissionDenied _ code _ | .inappropriateType _ code _
  | .invalidArgument _ code _ => min code (0 - code)
  | _ => 0

def reason (e : IO.Error) : String :=
  match FileProblem.ofCode? (number e).toNat with
  | some problem => problem.message
  | none => toString e

def run (arguments : List String) : IO (Option Failure) := do
  match Invocation.read arguments with
  | .error f => return some f
  | .ok ⟨path, o⟩ =>
    match ← (IO.FS.readBinFile path).toBaseIO with
    | .error e => return some (.unreadableImage path (reason e))
    | .ok image => converse image.toList o

end Sm83.Main

def main (arguments : List String) : IO UInt32 := do
  match ← Sm83.Main.run arguments with
  | none => return 0
  | some f =>
    Sm83.Main.print .err f.report
    return 1
