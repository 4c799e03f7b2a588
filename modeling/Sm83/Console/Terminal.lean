import Sm83.Bus.Ram
import Sm83.Console.Dialogue
import Sm83.Console.Tree
import Sm83.Sequencer.Loop

/-!
A conversation without a clock. The sequencer takes turns while the person reads, and what is told is gathered
by lines, for each of the two channels. A quit ends the conversation at once; the end of the lines ends it too.
What a path leads to is not decided here: it is given along with the arguments.
-/

set_option autoImplicit false

namespace Sm83

structure Page where
  out : List String
  err : List String
  deriving DecidableEq, Repr

/-- What a path leads to: the bytes of a file, or why they cannot be read. -/
abbrev Files : Type := String → Except String (List Byte)

structure Terminal (μ : Type) where
  loop : Loop μ
  options : Options := {}
  out : List String := []
  err : List String := []
  talking : Bool := true
  failed : Bool := false

namespace Terminal

variable {μ : Type}

/-- The turns between two looks at the terminal. -/
def glance : Nat := 1000

/-- The looks a person takes at most. -/
def patience : Nat := 30000

def tell (t : Terminal μ) (c : Channel) (text : String) : Terminal μ :=
  match c with
  | .out => { t with out := t.out ++ text.splitOn "\n" }
  | .err => { t with err := t.err ++ text.splitOn "\n" }

def hear (t : Terminal μ) (e : Event) : Terminal μ :=
  match e.message? with
  | some (c, text) => t.tell c text
  | none => t

def fail (t : Terminal μ) (f : Failure) : Terminal μ :=
  { t with talking := false, failed := true }.tell .err f.report

/-- The lines are there, so far as there are any to come. -/
def shows (t : Terminal μ) (out err : Nat) : Bool := out ≤ t.out.length && err ≤ t.err.length

variable [Bus μ]

def pass (t : Terminal μ) (turns : Nat) : Terminal μ × Array Event :=
  let (loop, told) := t.loop.settle turns #[]
  (told.foldl hear { t with loop }, told)

/-- A question is answered when all that was sent before it has been taken, one request a turn. -/
def link : Link (StateM (Terminal μ)) where
  send r := modify fun t => { t with loop := t.loop.send [r] }
  query a := do
    let t ← get
    let t := { t with loop := t.loop.send [.queryBreakpoint a] }
    let (t, told) := t.pass t.loop.inbox.length
    set t
    return told.contains (.answer a true)
  status := return (← get).loop.sequencer.published
  tell c text := modify (·.tell c text)

def begin (p : Processor μ) (o : Options) : Terminal μ :=
  ((link.greet o).run { loop := .ofProcessor p, options := o }).2

/-- Leaves a sequencer that is still there, and tells the registers as they are at the end. -/
def finish (t : Terminal μ) : Terminal μ :=
  if t.talking then
    let t := (link.leave.run (t.pass glance).1).2
    let t := (t.pass (t.loop.inbox.length + 1)).1
    { t with talking := false }.tell .out t.loop.sequencer.processor.regs.render
  else t

/-- A line after the end of the conversation is not read. -/
def line (t : Terminal μ) (text : String) : Terminal μ :=
  if t.talking then
    let (talking, t) := (link.feed t.options.debug text).run t
    if talking then t else t.finish
  else t

def lines (t : Terminal μ) (text : String) : Terminal μ := (text.splitOn "\n").foldl line t

/-- Looks, at least once, until the lines are there or nothing happens any more. -/
def await (out err : Nat) : Nat → Terminal μ → Terminal μ
  | 0, t => t
  | looks + 1, t =>
    let t := (t.pass glance).1
    if t.shows out err || t.loop.isBlocked then t else await out err looks t

def read (t : Terminal μ) (out err : Nat) : Page × Terminal μ :=
  let t := await out err patience t
  (⟨t.out.take out, t.err.take err⟩, { t with out := t.out.drop out, err := t.err.drop err })

def ofFiles (files : Files) (arguments : List String) : Terminal Ram :=
  let idle : Terminal Ram := { loop := .ofProcessor { bus := .empty } }
  match Invocation.read arguments with
  | .error f => idle.fail f
  | .ok ⟨path, o⟩ =>
    match files path with
    | .error reason => idle.fail (.unreadableImage path reason)
    | .ok image => begin { bus := .ofImage image } o

/-- The same with the files of a tree, seen from the location. -/
def ofArguments (location : Location) : List String → Terminal Ram :=
  ofFiles fun path => (location.read path).mapError FileProblem.message

end Terminal

end Sm83
