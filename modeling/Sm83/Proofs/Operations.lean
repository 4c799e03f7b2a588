import Sm83.Sequencer.Basic

/-!
What each operation of a sequencer does to it, and what it tells.
-/

set_option autoImplicit false

namespace Sm83

def Phase.held? : Phase → Option Opcode
  | .held op _ => some op
  | .rest | .gather | .gone => none

namespace Run

@[simp] theorem active_rearm (r : Run) : r.rearm.active = r.active := by
  unfold rearm
  split <;> rfl

@[simp] theorem paused_rearm (r : Run) : r.rearm.paused = r.paused := by
  unfold rearm
  split <;> rfl

@[simp] theorem active_adjust (r : Run) (a : Adjustment) : (r.adjust a).active = r.active := by
  cases a with
  | sticky on => cases on <;> rfl
  | _ => rfl

end Run

def Quiet (es : List Event) : Prop := ∀ regs, Event.committed regs ∉ es

@[simp] theorem quiet_nil : Quiet [] := by simp [Quiet]

@[simp] theorem quiet_cons (e : Event) (es : List Event) :
    Quiet (e :: es) ↔ (∀ regs, e ≠ .committed regs) ∧ Quiet es := by
  simp only [Quiet, List.mem_cons, not_or, forall_and]
  constructor
  · exact fun h => ⟨fun regs he => h.1 regs he.symm, h.2⟩
  · exact fun h => ⟨fun regs he => h.1 regs he.symm, h.2⟩

@[simp] theorem quiet_append (es fs : List Event) : Quiet (es ++ fs) ↔ Quiet es ∧ Quiet fs := by
  simp [Quiet, not_or, forall_and]

/-- An event that tells neither of a mode nor of what becomes of a run. -/
def Event.isRemark : Event → Bool
  | .note (.alreadyRunning) | .note (.lockedOut) | .note (.noRun _) => true
  | .note (.breakpointSet _) | .note (.breakpointCleared _) | .answer _ _ => true
  | _ => false

namespace Reaction

variable {μ : Type}

@[simp] theorem next_andThen (r : Reaction μ) (f : Sequencer μ → Reaction μ) :
    (r.andThen f).next = (f r.next).next := rfl

@[simp] theorem events_andThen (r : Reaction μ) (f : Sequencer μ → Reaction μ) :
    (r.andThen f).events = r.events ++ (f r.next).events := rfl

end Reaction

namespace Sequencer

variable {μ : Type}

@[simp] theorem next_saying (s : Sequencer μ) (n : Note) : (s.saying n).next = s := rfl

@[simp] theorem events_saying (s : Sequencer μ) (n : Note) : (s.saying n).events = [.note n] := rfl

theorem next_announce (s : Sequencer μ) (m : Mode) :
    (s.announce m).next =
      { s with
        mode := m
        published := if s.mode = m then s.published else { s with mode := m }.status } := by
  by_cases h : s.mode = m
  · subst h
    simp [announce]
  · simp [announce, h, publish]

theorem events_announce (s : Sequencer μ) (m : Mode) :
    (s.announce m).events =
      if s.mode = m then [] else [.note (.changed s.mode m), .entered m] := by
  by_cases h : s.mode = m <;> simp [announce, h]

theorem mem_announce {s : Sequencer μ} {m : Mode} {e : Event} (h : e ∈ (s.announce m).events) :
    e = .note (.changed s.mode m) ∨ e = .entered m := by
  rw [events_announce] at h
  split at h
  · cases h
  · simpa using h

@[simp] theorem quiet_announce (s : Sequencer μ) (m : Mode) : Quiet (s.announce m).events := by
  intro regs h
  rcases mem_announce h with h | h <;> cases h

theorem mem_announceRun {s : Sequencer μ} {e : Event} (h : e ∈ s.announceRun.events) :
    e = .note (.changed s.mode s.activeMode) ∨ e = .entered s.activeMode := by
  unfold announceRun at h
  split at h
  · exact mem_announce h
  · cases h

@[simp] theorem quiet_announceRun (s : Sequencer μ) : Quiet s.announceRun.events := by
  intro regs h
  rcases mem_announceRun h with h | h <;> cases h

@[simp] theorem phase_announceRun (s : Sequencer μ) : s.announceRun.next.phase = s.phase := by
  by_cases h : s.run.active = true <;> simp [announceRun, h, next_announce]

@[simp] theorem run_announceRun (s : Sequencer μ) : s.announceRun.next.run = s.run := by
  by_cases h : s.run.active = true <;> simp [announceRun, h, next_announce]

@[simp] theorem processor_announceRun (s : Sequencer μ) :
    s.announceRun.next.processor = s.processor := by
  by_cases h : s.run.active = true <;> simp [announceRun, h, next_announce]

@[simp] theorem committed_announceRun (s : Sequencer μ) :
    s.announceRun.next.committed = s.committed := by
  by_cases h : s.run.active = true <;> simp [announceRun, h, next_announce]

@[simp] theorem fault_announceRun (s : Sequencer μ) : s.announceRun.next.fault = s.fault := by
  by_cases h : s.run.active = true <;> simp [announceRun, h, next_announce]

theorem mode_announceRun (s : Sequencer μ) :
    s.announceRun.next.mode = if s.run.active then s.activeMode else s.mode := by
  by_cases h : s.run.active = true <;> simp [announceRun, h, next_announce]

/-- What it comes to when a request is obeyed. -/
inductive Obeyed (s : Sequencer μ) : Request → Reaction μ → Prop where
  | heard {r : Request} (run : Run) (breakpoints : Breakpoints) (leaving : Bool) (es : List Event) :
      r ≠ .reset → (∀ e ∈ es, e.isRemark = true) →
      Obeyed s r ⟨{ s with run, breakpoints, leaving }, es⟩
  | run {r : Request} (run : Run) : r ≠ .reset → Obeyed s r { s with run }.announceRun
  | stop : Obeyed s .stop ({ s with run := {} }.announce .stopped)
  | reset : Obeyed s .reset
      ({ s with
        processor := s.processor.reset
        run := {}
        breakpoints := {}
        fault := none
        committed := 0 }.announce .idle)

theorem obeyed (s : Sequencer μ) (r : Request) : s.Obeyed r (s.obey r) := by
  cases r with
  | start debug =>
    simp only [obey]
    split
    · exact .heard s.run s.breakpoints s.leaving _ (by simp) (by simp [Event.isRemark])
    · split
      · exact .heard s.run s.breakpoints s.leaving _ (by simp) (by simp [Event.isRemark])
      · exact .run _ (by simp)
  | stop =>
    simp only [obey]
    split
    · exact .stop
    · exact .heard s.run s.breakpoints s.leaving [] (by simp) (by simp)
  | adjust a =>
    simp only [obey]
    split
    · exact .run _ (by simp)
    · exact .heard s.run s.breakpoints s.leaving _ (by simp) (by simp [Event.isRemark])
  | reset => exact .reset
  | addBreakpoint a =>
    simp only [obey]
    split
    · exact .heard s.run s.breakpoints s.leaving [] (by simp) (by simp)
    · exact .heard s.run _ s.leaving _ (by simp) (by simp [Event.isRemark])
  | removeBreakpoint a =>
    simp only [obey]
    split
    · exact .heard s.run _ s.leaving _ (by simp) (by simp [Event.isRemark])
    · exact .heard s.run s.breakpoints s.leaving [] (by simp) (by simp)
  | queryBreakpoint a =>
    exact .heard s.run s.breakpoints s.leaving _ (by simp) (by simp [Event.isRemark])
  | shutdown => exact .heard _ s.breakpoints true [] (by simp) (by simp)

@[simp] theorem phase_obey (s : Sequencer μ) (r : Request) : (s.obey r).next.phase = s.phase := by
  have h := s.obeyed r
  generalize s.obey r = t at h ⊢
  cases h with
  | heard => rfl
  | run => simp
  | stop => simp [next_announce]
  | reset => simp [next_announce]

theorem processor_obey (s : Sequencer μ) (r : Request) :
    (s.obey r).next.processor = if r = .reset then s.processor.reset else s.processor := by
  have h := s.obeyed r
  generalize s.obey r = t at h ⊢
  cases h with
  | heard run breakpoints leaving es hr he => simp [hr]
  | run run hr => simp [hr]
  | stop => simp [next_announce]
  | reset => simp [next_announce]

theorem committed_obey (s : Sequencer μ) (r : Request) :
    (s.obey r).next.committed = if r = .reset then 0 else s.committed := by
  have h := s.obeyed r
  generalize s.obey r = t at h ⊢
  cases h with
  | heard run breakpoints leaving es hr he => simp [hr]
  | run run hr => simp [hr]
  | stop => simp [next_announce]
  | reset => simp [next_announce]

theorem fault_obey (s : Sequencer μ) (r : Request) :
    (s.obey r).next.fault = if r = .reset then none else s.fault := by
  have h := s.obeyed r
  generalize s.obey r = t at h ⊢
  cases h with
  | heard run breakpoints leaving es hr he => simp [hr]
  | run run hr => simp [hr]
  | stop => simp [next_announce]
  | reset => simp [next_announce]

theorem run_obey (s : Sequencer μ) (r : Request) :
    (s.obey r).next.run = match r with
      | .start debug => if s.run.active = true ∨ s.mode = .halted then s.run else .begin debug
      | .stop => if s.run.active then {} else s.run
      | .adjust a => if s.run.active then s.run.adjust a else s.run
      | .reset => {}
      | .shutdown => { s.run with active := false }
      | .addBreakpoint _ | .removeBreakpoint _ | .queryBreakpoint _ => s.run := by
  cases r with
  | start debug =>
    by_cases ha : s.run.active = true
    · simp [obey, ha]
    · by_cases hm : s.mode = .halted <;> simp [obey, ha, hm]
  | stop => by_cases ha : s.run.active = true <;> simp [obey, ha, next_announce]
  | adjust a => by_cases ha : s.run.active = true <;> simp [obey, ha]
  | reset => simp [obey, next_announce]
  | addBreakpoint a => simp only [obey]; split <;> rfl
  | removeBreakpoint a => simp only [obey]; split <;> rfl
  | queryBreakpoint a => rfl
  | shutdown => rfl

theorem run_obey_keeps {P : Run → Prop} (s : Sequencer μ) (r : Request) (same : P s.run) (ended : P {})
    (start : ∀ debug, P (.begin debug)) (adjust : ∀ a, P (s.run.adjust a))
    (leave : P { s.run with active := false }) : P (s.obey r).next.run := by
  rw [run_obey]
  cases r with
  | start debug =>
    dsimp only
    split
    · exact same
    · exact start debug
  | stop =>
    dsimp only
    split
    · exact ended
    · exact same
  | adjust a =>
    dsimp only
    split
    · exact adjust a
    · exact same
  | reset => exact ended
  | shutdown => exact leave
  | _ => exact same

@[simp] theorem quiet_obey (s : Sequencer μ) (r : Request) : Quiet (s.obey r).events := by
  have h := s.obeyed r
  generalize s.obey r = t at h ⊢
  cases h with
  | heard run breakpoints leaving es hr he =>
    intro regs hm
    cases he _ hm
  | run => simp
  | stop => simp
  | reset => simp

theorem next_take (s : Sequencer μ) (r : Request) : (s.take r).next = (s.obey r).next := rfl

theorem events_take (s : Sequencer μ) (r : Request) :
    (s.take r).events = .note (.taken r) :: (s.obey r).events := rfl

@[simp] theorem quiet_take (s : Sequencer μ) (r : Request) : Quiet (s.take r).events := by
  simp [events_take]

@[simp] theorem phase_take (s : Sequencer μ) (r : Request) : (s.take r).next.phase = s.phase := by
  rw [next_take, phase_obey]

def between (s : Sequencer μ) : Phase :=
  if s.leaving then .gone else if s.run.active then .gather else .rest

theorem next_settle (s : Sequencer μ) : s.settle.next = { s with phase := s.between } := by
  simp only [settle, between]
  split
  · rfl
  · split <;> rfl

theorem events_settle (s : Sequencer μ) :
    s.settle.events = if s.leaving then [.note .closed] else [] := by
  simp only [settle]
  split
  · rfl
  · split <;> rfl

theorem mem_settle {s : Sequencer μ} {e : Event} (h : e ∈ s.settle.events) : e = .note .closed := by
  rw [events_settle] at h
  split at h
  · simpa using h
  · cases h

@[simp] theorem quiet_settle (s : Sequencer μ) : Quiet s.settle.events := by
  intro regs h
  cases mem_settle h

@[simp] theorem quiet_lock (s : Sequencer μ) (f : Fault) : Quiet (s.lock f).events := by
  simp [lock]

theorem mem_lock {s : Sequencer μ} {f : Fault} {e : Event} (h : e ∈ (s.lock f).events) :
    e = .note (.faulted f s.processor.regs) ∨ e = .alert f.message ∨
      e = .note (.changed s.mode .halted) ∨ e = .entered .halted ∨ e = .note .closed := by
  simp only [lock, Reaction.events_andThen, List.mem_append] at h
  rcases h with (h | h) | h
  · have hx : e = .note (.faulted f s.processor.regs) ∨ e = .alert f.message := by simpa using h
    exact hx.imp_right .inl
  · exact .inr (.inr ((mem_announce h).imp_right .inl))
  · exact .inr (.inr (.inr (.inr (mem_settle h))))

theorem mem_finish {s : Sequencer μ} {r : Completion} {e : Event} (h : e ∈ (s.finish r).events) :
    e = .note (.stoppedAt r.pc) ∨ e = .note (.changed s.mode .stopped) ∨ e = .entered .stopped := by
  cases ho : r.outcome with
  | stop =>
    have hs : e = .note (.stoppedAt r.pc) ∨ e ∈ ({ s with run := {} }.announce .stopped).events := by
      simpa [finish, ho] using h
    exact hs.imp_right (mem_announce (s := { s with run := {} }))
  | proceed => simp [finish, ho] at h
  | unimplemented => simp [finish, ho] at h

@[simp] theorem quiet_finish (s : Sequencer μ) (r : Completion) : Quiet (s.finish r).events := by
  intro regs h
  rcases mem_finish h with h | h | h <;> cases h

theorem next_finish (s : Sequencer μ) (r : Completion) :
    (s.finish r).next =
      (if r.outcome = .stop then ({ s with run := {} }.announce .stopped).next else s).publish := by
  cases ho : r.outcome <;> simp [finish, ho]

theorem run_finish (s : Sequencer μ) (r : Completion) :
    (s.finish r).next.run = if r.outcome = .stop then {} else s.run := by
  cases ho : r.outcome <;> simp [finish, ho, next_announce, publish]

theorem mode_finish (s : Sequencer μ) (r : Completion) :
    (s.finish r).next.mode = if r.outcome = .stop then .stopped else s.mode := by
  cases ho : r.outcome <;> simp [finish, ho, next_announce, publish]

@[simp] theorem phase_finish (s : Sequencer μ) (r : Completion) :
    (s.finish r).next.phase = s.phase := by
  cases ho : r.outcome <;> simp [finish, ho, next_announce, publish]

@[simp] theorem processor_finish (s : Sequencer μ) (r : Completion) :
    (s.finish r).next.processor = s.processor := by
  cases ho : r.outcome <;> simp [finish, ho, next_announce, publish]

@[simp] theorem committed_finish (s : Sequencer μ) (r : Completion) :
    (s.finish r).next.committed = s.committed := by
  cases ho : r.outcome <;> simp [finish, ho, next_announce, publish]

@[simp] theorem fault_finish (s : Sequencer μ) (r : Completion) : (s.finish r).next.fault = s.fault := by
  cases ho : r.outcome <;> simp [finish, ho, next_announce, publish]

@[simp] theorem isSuspended_between (s : Sequencer μ) : s.between.isSuspended = false := by
  simp only [between]
  split
  · rfl
  · split <;> rfl

@[simp] theorem held?_settle (s : Sequencer μ) : s.settle.next.phase.held? = none := by
  rw [next_settle]
  simp only [between]
  split
  · rfl
  · split <;> rfl

theorem processor_lock (s : Sequencer μ) (f : Fault) : (s.lock f).next.processor = s.processor := by
  simp [lock, next_settle, next_announce]

theorem committed_lock (s : Sequencer μ) (f : Fault) : (s.lock f).next.committed = s.committed := by
  simp [lock, next_settle, next_announce]

theorem fault_lock (s : Sequencer μ) (f : Fault) : (s.lock f).next.fault = some f := by
  simp [lock, next_settle, next_announce]

theorem published_lock {s : Sequencer μ} (h : s.mode ≠ .halted) (f : Fault) :
    (s.lock f).next.published =
      { mode := .halted, regs := s.processor.regs, fault := some f, committed := s.committed } := by
  simp [lock, next_settle, next_announce, status, h]

theorem mem_notes {r : Completion} {e : Event} (h : e ∈ notes r) :
    (∃ w, e = .note (.unimplemented w)) ∨ ∃ n, e = .note (.extended n) := by
  simp only [notes, List.mem_append, List.mem_map] at h
  rcases h with ⟨w, -, rfl⟩ | h
  · exact .inl ⟨w, rfl⟩
  · split at h
    · split at h
      · exact .inr ⟨_, List.mem_singleton.1 h⟩
      · cases h
    · cases h
    · cases h

theorem quiet_notes (r : Completion) : Quiet (notes r) := by
  intro regs h
  rcases mem_notes h with ⟨w, hw⟩ | ⟨n, hn⟩
  · cases hw
  · cases hn

variable [Bus μ]

/-- A commit without what comes after it. -/
def retire (s : Sequencer μ) (op : Opcode) : Reaction μ :=
  ⟨{ s with
      processor := (s.processor.execute op).2
      run := if s.run.debug then { s.run with armed := false } else s.run
      committed := s.committed + 1 },
    (if s.run.debug then [.note (.showing s.processor.regs)] else []) ++
      notes (s.processor.execute op).1 ++ [.committed (s.processor.execute op).2.regs]⟩

theorem commit_eq (s : Sequencer μ) (op : Opcode) :
    s.commit op =
      ((s.retire op).andThen (·.finish (s.processor.execute op).1)).andThen settle := rfl

theorem mem_retire {s : Sequencer μ} {op : Opcode} {e : Event} (h : e ∈ (s.retire op).events) :
    e = .note (.showing s.processor.regs) ∨ e ∈ notes (s.processor.execute op).1 ∨
      e = .committed (s.processor.execute op).2.regs := by
  simp only [retire, List.mem_append, List.mem_singleton] at h
  rcases h with (h | h) | h
  · split at h
    · exact .inl (List.mem_singleton.1 h)
    · cases h
  · exact .inr (.inl h)
  · exact .inr (.inr h)

theorem processor_commit (s : Sequencer μ) (op : Opcode) :
    (s.commit op).next.processor = (s.processor.execute op).2 := by
  simp [commit_eq, next_settle, retire]

theorem committed_commit (s : Sequencer μ) (op : Opcode) :
    (s.commit op).next.committed = s.committed + 1 := by
  simp [commit_eq, next_settle, retire]

@[simp] theorem active_retire (s : Sequencer μ) (op : Opcode) :
    (s.retire op).next.run.active = s.run.active := by
  simp only [retire]
  split <;> rfl

@[simp] theorem paused_retire (s : Sequencer μ) (op : Opcode) :
    (s.retire op).next.run.paused = s.run.paused := by
  simp only [retire]
  split <;> rfl

def atBreakpoint (s : Sequencer μ) : Bool := s.breakpoints.contains s.processor.regs.pc

/-- The beginning of an instruction, up to its decoding. -/
def check (s : Sequencer μ) : Reaction μ :=
  let run := if s.atBreakpoint then s.run.meetBreakpoint else s.run
  ⟨{ s with processor := s.processor.decode.2, run := run.rearm },
    if s.atBreakpoint then [.note (.breakpointHit s.processor.regs.pc)] else []⟩

theorem mem_check {s : Sequencer μ} {e : Event} (h : e ∈ s.check.events) :
    e = .note (.breakpointHit s.processor.regs.pc) := by
  simp only [check] at h
  split at h
  · simpa using h
  · cases h

@[simp] theorem quiet_check (s : Sequencer μ) : Quiet s.check.events := by
  intro regs h
  cases mem_check h

@[simp] theorem active_check (s : Sequencer μ) : s.check.next.run.active = s.run.active := by
  simp only [check, Run.active_rearm]
  split <;> rfl

@[simp] theorem paused_check (s : Sequencer μ) : s.check.next.run.paused = s.run.paused := by
  simp only [check, Run.paused_rearm]
  split <;> rfl

theorem begin_eq (s : Sequencer μ) :
    s.begin = match s.processor.decode.1 with
      | .error f => s.check.andThen (·.lock f)
      | .ok op => (s.check.andThen (·.saying (.decoded op))).andThen (·.consider op) := by
  by_cases h : s.atBreakpoint = true
  · have hc : s.breakpoints.contains s.processor.regs.pc = true := h
    cases hd : s.processor.decode.1 <;> simp [begin, check, h, hc, hd, Reaction.andThen, saying]
  · have hc : s.breakpoints.contains s.processor.regs.pc = false := by simpa [atBreakpoint] using h
    cases hd : s.processor.decode.1 <;> simp [begin, check, h, hc, hd, Reaction.andThen, saying]

theorem consider_of_inactive {s : Sequencer μ} (h : s.run.active = false) (op : Opcode) :
    s.consider op = s.settle := by
  simp [consider, h]

theorem next_react_of_inactive {s : Sequencer μ} {r : Request} (ha : (s.take r).next.run.active = false)
    (hp : s.phase ≠ .gather) (hg : s.phase ≠ .gone) :
    (s.react (some r)).next = (s.take r).next.settle.next := by
  cases h : s.phase with
  | rest => simp [react, h]
  | gather => exact absurd h hp
  | held op hold =>
    cases hold with
    | pause => simp [react, h, ha, consider_of_inactive ha]
    | step =>
      have hn : { (s.take r).next with phase := .gather }.announceRun =
          ⟨{ (s.take r).next with phase := .gather }, []⟩ := by simp [announceRun, ha]
      have hx : ({ (s.take r).next with phase := .gather } : Sequencer μ).run.active = false := ha
      simp [react, h, ha, hn, consider_of_inactive hx, next_settle, between]
  | gone => exact absurd h hg

end Sequencer

end Sm83
