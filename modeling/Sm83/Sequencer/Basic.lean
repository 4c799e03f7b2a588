import Sm83.Sequencer.Event

/-!
The sequencer runs a processor one instruction at a time and takes requests between instructions, and while
it holds one back. It reacts to what its inbox offers: a request, or nothing. Before an instruction it takes
requests as long as there are any; at rest, and while an instruction is held, it takes one and looks again.
-/

set_option autoImplicit false

namespace Sm83

inductive Hold where
  | pause
  | step
  deriving DecidableEq, Repr

inductive Phase where
  | rest
  | gather
  | held (op : Opcode) (hold : Hold)
  | gone
  deriving DecidableEq, Repr

def Phase.isSuspended : Phase → Bool
  | .held _ .step => true
  | .rest | .gather | .held _ .pause | .gone => false

/-- `mode` is the last one announced, and `published` the status others can read. -/
structure Sequencer (μ : Type) where
  processor : Processor μ
  run : Run := {}
  breakpoints : Breakpoints := {}
  mode : Mode := .idle
  fault : Option Fault := none
  committed : Nat := 0
  published : Status
  leaving : Bool := false
  phase : Phase := .rest

structure Reaction (μ : Type) where
  next : Sequencer μ
  events : List Event := []

def Reaction.andThen {μ : Type} (r : Reaction μ) (f : Sequencer μ → Reaction μ) : Reaction μ :=
  let s := f r.next
  ⟨s.next, r.events ++ s.events⟩

theorem Reaction.andThen_assoc {μ : Type} (r : Reaction μ) (f g : Sequencer μ → Reaction μ) :
    (r.andThen f).andThen g = r.andThen fun s => (f s).andThen g := by
  simp [Reaction.andThen]

namespace Sequencer

variable {μ : Type}

def ofProcessor (p : Processor μ) : Sequencer μ := { processor := p, published := { regs := p.regs } }

def saying (s : Sequencer μ) (n : Note) : Reaction μ := ⟨s, [.note n]⟩

def status (s : Sequencer μ) : Status :=
  { mode := s.mode, regs := s.processor.regs, fault := s.fault, committed := s.committed }

def publish (s : Sequencer μ) : Sequencer μ := { s with published := s.status }

/-- Only a change of mode is announced, and published. -/
def announce (s : Sequencer μ) (mode : Mode) : Reaction μ :=
  if s.mode = mode then ⟨s, []⟩
  else ⟨{ s with mode }.publish, [.note (.changed s.mode mode), .entered mode]⟩

/-- The mode that the flags of an active run amount to. -/
def activeMode (s : Sequencer μ) : Mode :=
  if s.run.paused then .paused else if s.phase.isSuspended && s.run.armed then .stepping else .running

def announceRun (s : Sequencer μ) : Reaction μ :=
  if s.run.active then s.announce s.activeMode else ⟨s, []⟩

def obey (s : Sequencer μ) : Request → Reaction μ
  | .start debug =>
    if s.run.active then s.saying .alreadyRunning
    else if s.mode = .halted then s.saying .lockedOut
    else { s with run := .begin debug }.announceRun
  | .stop => if s.run.active then { s with run := {} }.announce .stopped else ⟨s, []⟩
  | .adjust a =>
    if s.run.active then { s with run := s.run.adjust a }.announceRun else s.saying (.noRun a)
  | .reset =>
    { s with
      processor := s.processor.reset
      run := {}
      breakpoints := {}
      fault := none
      committed := 0 }.announce .idle
  | .addBreakpoint a =>
    if s.breakpoints.contains a then ⟨s, []⟩
    else { s with breakpoints := s.breakpoints.insert a }.saying (.breakpointSet a)
  | .removeBreakpoint a =>
    if s.breakpoints.contains a then
      { s with breakpoints := s.breakpoints.erase a }.saying (.breakpointCleared a)
    else ⟨s, []⟩
  | .queryBreakpoint a => ⟨s, [.answer a (s.breakpoints.contains a)]⟩
  | .shutdown => ⟨{ s with run := { s.run with active := false }, leaving := true }, []⟩

def take (s : Sequencer μ) (r : Request) : Reaction μ := (s.saying (.taken r)).andThen (·.obey r)

/-- Between instructions: a sequencer told to leave is gone, an active run gathers requests, else rest. -/
def settle (s : Sequencer μ) : Reaction μ :=
  if s.leaving then { s with phase := .gone }.saying .closed
  else if s.run.active then ⟨{ s with phase := .gather }, []⟩
  else ⟨{ s with phase := .rest }, []⟩

variable [Bus μ]

/-- The last part of a commit: a stop ends the run, and the status is published in any case. -/
def finish (s : Sequencer μ) (r : Completion) : Reaction μ :=
  let ended : Reaction μ := match r.outcome with
    | .stop => (s.saying (.stoppedAt r.pc)).andThen fun s => { s with run := {} }.announce .stopped
    | .proceed | .unimplemented => ⟨s, []⟩
  ended.andThen fun s => ⟨s.publish, []⟩

def notes (r : Completion) : List Event :=
  r.warning?.toList.map (fun w => .note (.unimplemented w)) ++
    match r.operand with
    | .byte n => if r.opcode = .extended then [.note (.extended n)] else []
    | .none | .word _ => []

def commit (s : Sequencer μ) (op : Opcode) : Reaction μ :=
  let shown := if s.run.debug then [.note (.showing s.processor.regs)] else []
  let run := if s.run.debug then { s.run with armed := false } else s.run
  let (r, processor) := s.processor.execute op
  let done : Reaction μ :=
    ⟨{ s with processor, run, committed := s.committed + 1 },
      shown ++ notes r ++ [.committed processor.regs]⟩
  (done.andThen (·.finish r)).andThen settle

/-- Holds the instruction back or commits it; a run that has ended gives it up. -/
def consider (s : Sequencer μ) (op : Opcode) : Reaction μ :=
  if !s.run.active then s.settle
  else if s.run.paused then ⟨{ s with phase := .held op .pause }, []⟩
  else if s.run.debug && s.run.armed then { s with phase := .held op .step }.announceRun
  else s.commit op

def lock (s : Sequencer μ) (f : Fault) : Reaction μ :=
  let told : Reaction μ := ⟨s, [.note (.faulted f s.processor.regs), .alert f.message]⟩
  (told.andThen fun s => { s with run := {}, fault := some f }.announce .halted).andThen settle

/-- Begins an instruction: a breakpoint at it turns stepping on, then it is decoded. -/
def begin (s : Sequencer μ) : Reaction μ :=
  let pc := s.processor.regs.pc
  let met : Reaction μ :=
    if s.breakpoints.contains pc then { s with run := s.run.meetBreakpoint }.saying (.breakpointHit pc)
    else ⟨s, []⟩
  met.andThen fun s =>
    let (decoded, processor) := s.processor.decode
    let s := { s with processor, run := s.run.rearm }
    match decoded with
    | .error f => s.lock f
    | .ok op => (s.saying (.decoded op)).andThen (·.consider op)

/-- One request, or `none` when there is none to take. -/
def react (s : Sequencer μ) (offer : Option Request) : Reaction μ :=
  match s.phase, offer with
  | .rest, none => ⟨s, []⟩
  | .rest, some r => (s.take r).andThen settle
  | .gather, none => if s.run.active then s.begin else s.settle
  | .gather, some r => s.take r
  | .held _ _, none => ⟨s, []⟩
  | .held op .pause, some r =>
    (s.take r).andThen fun s => if s.run.active && s.run.paused then ⟨s, []⟩ else s.consider op
  | .held op .step, some r =>
    (s.take r).andThen fun s =>
      if s.run.active && s.run.armed then ⟨s, []⟩
      else ({ s with phase := .gather }.announceRun).andThen (·.consider op)
  | .gone, none => ⟨s, []⟩
  | .gone, some r =>
    ⟨s, .note .dropped :: match r with
      | .queryBreakpoint a => [.answer a false]
      | _ => []⟩

end Sequencer

end Sm83
