import Mathlib.Data.List.Chain
import Mathlib.Data.List.DropRight
import Sm83.Proofs.Fetch
import Sm83.Proofs.Publication
import Sm83.Proofs.Turns

/-!
The status and the record tell the same. The modes announced follow each other as the life of a run allows; the
last of them, the commits and the alert since the last reset are what can be read.
-/

set_option autoImplicit false

namespace Sm83

namespace Mode

/-- The modes that can come next. -/
def successors : Mode → List Mode
  | .idle => [.running]
  | .running => [.paused, .stepping, .halted, .stopped, .idle]
  | .stepping => [.running, .paused, .stopped, .idle]
  | .paused => [.running, .stepping, .halted, .stopped, .idle]
  | .halted => [.idle]
  | .stopped => [.running, .idle]

theorem ne_of_mem_successors {m n : Mode} (h : n ∈ m.successors) : m ≠ n := by
  cases m <;> cases n <;> simp_all [successors]

theorem eq_or_mem_of_isActive {m n : Mode} (hm : m.isActive = true) (hn : n.isActive = true) :
    m = n ∨ n ∈ m.successors := by
  cases m <;> cases n <;> simp_all [successors, isActive]

theorem stopped_mem_of_isActive {m : Mode} (hm : m.isActive = true) : .stopped ∈ m.successors := by
  cases m <;> simp_all [successors, isActive]

theorem eq_or_idle_mem (m : Mode) : m = .idle ∨ .idle ∈ m.successors := by
  cases m <;> simp [successors]

theorem eq_or_running_mem {m : Mode} (hm : m ≠ .halted) : m = .running ∨ .running ∈ m.successors := by
  cases m <;> simp_all [successors]

end Mode

namespace Event

def mode? : Event → Option Mode
  | .entered m => some m
  | .note _ | .committed _ | .alert _ | .answer _ _ => none

def modes (es : List Event) : List Mode := es.filterMap mode?

def alert? : Event → Option String
  | .alert text => some text
  | .note _ | .committed _ | .entered _ | .answer _ _ => none

def alerts (es : List Event) : List String := es.filterMap alert?

/-- What was told since the last reset was taken, or from the beginning. -/
def sinceReset (es : List Event) : List Event := es.rtakeWhile (· ≠ .note (.taken .reset))

variable {es fs : List Event}

@[simp] theorem modes_append (es fs : List Event) : modes (es ++ fs) = modes es ++ modes fs := by
  simp [modes]

@[simp] theorem alerts_append (es fs : List Event) : alerts (es ++ fs) = alerts es ++ alerts fs := by
  simp [alerts]

theorem modes_eq_nil (h : ∀ m, .entered m ∉ es) : modes es = [] := by
  unfold modes
  rw [List.filterMap_eq_nil_iff]
  intro e he
  cases e with
  | entered m => exact absurd he (h m)
  | _ => rfl

theorem alerts_eq_nil (h : Unread es) : alerts es = [] := by
  unfold alerts
  rw [List.filterMap_eq_nil_iff]
  intro e he
  cases e with
  | alert text => cases h _ he
  | _ => rfl

theorem sinceReset_append (h : .note (.taken .reset) ∉ fs) : sinceReset (es ++ fs) = sinceReset es ++ fs := by
  have hp : ∀ e ∈ fs.reverse, decide (e ≠ .note (.taken .reset)) = true := by
    intro e he
    rw [decide_eq_true_eq]
    rintro rfl
    exact h (List.mem_reverse.1 he)
  rw [sinceReset, List.rtakeWhile, List.reverse_append, List.takeWhile_append_of_pos hp, List.reverse_append,
    List.reverse_reverse]
  rfl

theorem sinceReset_reset (es : List Event) (h : .note (.taken .reset) ∉ fs) :
    sinceReset (es ++ .note (.taken .reset) :: fs) = fs := by
  have he : es ++ .note (.taken .reset) :: fs = (es ++ [.note (.taken .reset)]) ++ fs := by simp
  rw [he, sinceReset_append h]
  simp [sinceReset, List.rtakeWhile]

end Event

/-- The events announce no more than the change from one mode to the other, if there is one. -/
inductive Shift (m n : Mode) (es : List Event) : Prop where
  | same : Event.modes es = [] → m = n → Shift m n es
  | change : Event.modes es = [n] → n ∈ m.successors → Shift m n es

namespace Shift

variable {m n : Mode} {es fs : List Event}

theorem prepend (h : Shift m n fs) (he : Event.modes es = []) : Shift m n (es ++ fs) := by
  cases h with
  | same hf hm => exact .same (by simp [he, hf]) hm
  | change hf hm => exact .change (by simp [he, hf]) hm

theorem append (h : Shift m n es) (hf : Event.modes fs = []) : Shift m n (es ++ fs) := by
  cases h with
  | same he hm => exact .same (by simp [he, hf]) hm
  | change he hm => exact .change (by simp [he, hf]) hm

theorem isChain {told : List Event} (h : Shift m n es)
    (hc : (Mode.idle :: Event.modes told).IsChain fun a b => b ∈ a.successors)
    (hl : (Mode.idle :: Event.modes told).getLast? = some m) :
    (Mode.idle :: Event.modes (told ++ es)).IsChain (fun a b => b ∈ a.successors) ∧
      (Mode.idle :: Event.modes (told ++ es)).getLast? = some n := by
  rw [Event.modes_append, ← List.cons_append]
  cases h with
  | same he hm =>
    rw [he, List.append_nil, ← hm]
    exact ⟨hc, hl⟩
  | change he hm =>
    rw [he]
    refine ⟨hc.append (List.isChain_singleton n) ?_, List.getLast?_concat⟩
    intro a ha b hb
    rw [hl] at ha
    cases ha
    cases hb
    exact hm

end Shift

namespace Sequencer

variable {μ : Type} {s : Sequencer μ}

theorem shift_announce {n : Mode} (h : s.mode = n ∨ n ∈ s.mode.successors) :
    Shift s.mode (s.announce n).next.mode (s.announce n).events := by
  rw [events_announce, next_announce]
  by_cases hm : s.mode = n
  · exact .same (by simp [hm, Event.modes]) hm
  · simp only [if_neg hm]
    exact .change rfl (h.resolve_left hm)

theorem shift_announceRun (h : s.run.active = true → s.mode = s.activeMode ∨ s.activeMode ∈ s.mode.successors) :
    Shift s.mode s.announceRun.next.mode s.announceRun.events := by
  unfold announceRun
  split
  next ha => exact shift_announce (h ha)
  next => exact .same rfl rfl

theorem Announced.isActive (h : s.Announced) (ha : s.run.active = true) : s.mode.isActive = true := by
  rw [h ha]
  exact s.isActive_activeMode

theorem shift_obey (h : s.Announced) (r : Request) : Shift s.mode (s.obey r).next.mode (s.obey r).events := by
  cases r with
  | start debug =>
    by_cases ha : s.run.active = true
    · simpa [obey, ha] using Shift.same rfl rfl
    · by_cases hm : s.mode = .halted
      · simpa [obey, ha, hm] using Shift.same rfl rfl
      · -- from every mode but that of a fault
        have hn : { s with run := .begin debug }.activeMode = .running := by
          simp [activeMode, Run.begin]
        have hx := shift_announceRun (s := { s with run := .begin debug }) fun _ => by
          rw [hn]
          exact Mode.eq_or_running_mem hm
        simpa [obey, ha, hm] using hx
  | stop =>
    by_cases ha : s.run.active = true
    · have hx := shift_announce (s := { s with run := {} }) (n := .stopped)
        (.inr (Mode.stopped_mem_of_isActive (h.isActive ha)))
      simpa [obey, ha] using hx
    · simpa [obey, ha] using Shift.same rfl rfl
  | adjust a =>
    by_cases ha : s.run.active = true
    · have hx := shift_announceRun (s := { s with run := s.run.adjust a }) fun _ =>
        Mode.eq_or_mem_of_isActive (h.isActive ha) (isActive_activeMode _)
      simpa [obey, ha] using hx
    · simpa [obey, ha] using Shift.same rfl rfl
  | reset =>
    exact shift_announce (s := { s with
      processor := s.processor.reset
      run := {}
      breakpoints := {}
      fault := none
      committed := 0 }) s.mode.eq_or_idle_mem
  | addBreakpoint a => simp only [obey]; split <;> exact .same rfl rfl
  | removeBreakpoint a => simp only [obey]; split <;> exact .same rfl rfl
  | queryBreakpoint a => exact .same rfl rfl
  | shutdown => exact .same rfl rfl

theorem shift_take (h : s.Announced) (r : Request) : Shift s.mode (s.take r).next.mode (s.take r).events := by
  exact (shift_obey h r).prepend rfl

theorem shift_finish (h : s.mode.isActive = true) (r : Completion) :
    Shift s.mode (s.finish r).next.mode (s.finish r).events := by
  cases ho : r.outcome with
  | stop =>
    have hx := shift_announce (s := { s with run := {} }) (n := .stopped)
      (.inr (Mode.stopped_mem_of_isActive h))
    rw [mode_finish, if_pos ho]
    have hy : Event.modes [.note (.stoppedAt r.pc)] = [] := rfl
    simpa [finish, ho, next_announce] using hx.prepend hy
  | proceed => simpa [finish, ho, publish] using Shift.same rfl rfl
  | unimplemented => simpa [finish, ho, publish] using Shift.same rfl rfl

theorem modes_settle (s : Sequencer μ) : Event.modes s.settle.events = [] :=
  Event.modes_eq_nil fun _ => not_entered_settle

theorem shift_lock (h : .halted ∈ s.mode.successors) (f : Fault) :
    Shift s.mode (s.lock f).next.mode (s.lock f).events := by
  have hn : (s.lock f).next.mode = .halted := by simp [lock, next_settle, next_announce]
  rw [hn, events_lock (Mode.ne_of_mem_successors h)]
  refine Shift.append (.change rfl h) ?_
  split <;> rfl

theorem alerts_lock (h : s.mode ≠ .halted) (f : Fault) : Event.alerts (s.lock f).events = [f.message] := by
  rw [events_lock h]
  split <;> rfl

theorem Announced.halted_mem (h : s.Announced) (ha : s.run.active = true) (hp : s.phase.isSuspended = false) :
    .halted ∈ s.mode.successors := by
  rw [h ha]
  unfold activeMode
  split <;> simp [hp, Mode.successors]

variable [Bus μ]

theorem shift_commit (h : s.mode.isActive = true) (op : Opcode) :
    Shift s.mode (s.commit op).next.mode (s.commit op).events := by
  have hf := shift_finish (s := (s.retire op).next) h (s.processor.execute op).1
  have hr : Event.modes (s.retire op).events = [] := Event.modes_eq_nil fun _ => not_entered_retire
  rw [commit_eq]
  simp only [Reaction.next_andThen, Reaction.events_andThen]
  rw [next_settle]
  exact (hf.prepend hr).append (modes_settle _)

end Sequencer

theorem Move.shift {μ : Type} [Bus μ] {s : Sequencer μ} {hand last : Option Opcode} {r : Reaction μ}
    (hm : Move s hand r last) (h : s.Announced) : Shift s.mode r.next.mode r.events := by
  cases hm with
  | drop r hp =>
    have hn : (s.react (some r)).next = s := by simp [Sequencer.react, hp]
    rw [hn]
    refine .same ?_ rfl
    cases r <;> simp [Sequencer.react, hp, Event.modes, Event.mode?]
  | settle hs =>
    rw [Sequencer.next_settle]
    exact .same s.modes_settle rfl
  | decode hp ha hd =>
    refine .same (Event.modes_eq_nil fun m => ?_) rfl
    simpa using Sequencer.not_entered_check
  | lock hp ha hd =>
    have hh := h.halted_mem ha (by simp [hp, Phase.isSuspended])
    have hl := Sequencer.shift_lock (s := s.check.next) hh
    exact (hl _).prepend (Event.modes_eq_nil fun _ => Sequencer.not_entered_check)
  | pause ha hp => exact .same rfl rfl
  | suspend ha hp hd hr =>
    exact Sequencer.shift_announceRun (s := { s with phase := .held _ .step }) fun _ =>
      Mode.eq_or_mem_of_isActive (h.isActive ha) (Sequencer.isActive_activeMode _)
  | release hp hr =>
    exact Sequencer.shift_announceRun (s := { s with phase := .gather }) fun ha =>
      Mode.eq_or_mem_of_isActive (h.isActive ha) (Sequencer.isActive_activeMode _)
  | commit hc => exact Sequencer.shift_commit (h.isActive hc.active) _

namespace Move

variable {μ : Type} [Bus μ] {s : Sequencer μ} {hand last : Option Opcode} {r : Reaction μ}

theorem committed (hm : Move s hand r last) :
    r.next.committed = s.committed + (Event.commits r.events).length := by
  rcases hm.quiet_or_commit with hq | ⟨op, -, -, rfl, -⟩
  · rw [Event.commits_of_quiet hq]
    cases hm with
    | drop r hp => simp [Sequencer.react, hp]
    | settle hs => simp [Sequencer.next_settle]
    | decode hp ha hd => rfl
    | lock hp ha hd => exact Sequencer.committed_lock _ _
    | pause ha hp => rfl
    | suspend ha hp hd hr => exact Sequencer.committed_announceRun _
    | release hp hr => exact Sequencer.committed_announceRun _
    | @commit op hc =>
      have hx := s.commits_commit op
      simp [Event.commits_of_quiet hq] at hx
  · rw [Sequencer.committed_commit, Sequencer.commits_commit, List.length_singleton]

theorem fault (hm : Move s hand r last) (ha : s.Announced) (ht : s.Tidy) :
    r.next.fault.toList.map Fault.message = s.fault.toList.map Fault.message ++ Event.alerts r.events := by
  rcases hm.unread with hu | ⟨-, -, hx, ⟨op, -, rfl⟩ | ⟨f, -, rfl⟩⟩
  · rw [Event.alerts_eq_nil hu, List.append_nil]
    cases hm with
    | drop r hp => simp [Sequencer.react, hp]
    | settle hs => simp [Sequencer.next_settle]
    | decode hp ha hd => rfl
    | @lock f hp ha hd => exact absurd (hu (.alert f.message) (by simp [Sequencer.lock])) (by simp [Event.isFetch])
    | pause ha hp => rfl
    | suspend ha hp hd hr => rw [Sequencer.fault_announceRun]
    | release hp hr => rw [Sequencer.fault_announceRun]
    | commit hc => simp [Sequencer.commit_eq, Sequencer.next_settle, Sequencer.retire]
  · rw [Reaction.events_andThen, Event.alerts_append, Event.alerts_eq_nil s.unread_check]
    simp [Sequencer.check, Event.alerts, Event.alert?]
  · have hs : s.fault = none := by simpa using ht.fault_eq_none (ha.ne_halted hx)
    have hk : s.check.next.mode ≠ .halted := ha.ne_halted hx
    rw [Reaction.events_andThen, Event.alerts_append, Event.alerts_eq_nil s.unread_check,
      Sequencer.alerts_lock hk, Reaction.next_andThen, Sequencer.fault_lock, hs]
    rfl

end Move

/-- The mode, the count and the fault are what the record tells of them. -/
structure Recorded {μ : Type} (told : List Event) (s : Sequencer μ) : Prop where
  modes : (Mode.idle :: Event.modes told).IsChain fun m n => n ∈ m.successors
  last : (Mode.idle :: Event.modes told).getLast? = some s.mode
  commits : (Event.commits (Event.sinceReset told)).length = s.committed
  alerts : Event.alerts (Event.sinceReset told) = s.fault.toList.map Fault.message

namespace Recorded

variable {μ : Type} {s : Sequencer μ} {told : List Event}

theorem take (h : Recorded told s) (ha : s.Announced) (r : Request) :
    Recorded (told ++ (s.take r).events) (s.take r).next := by
  obtain ⟨hm, hl⟩ := (Sequencer.shift_take ha r).isChain h.modes h.last
  rw [Sequencer.next_take] at hl ⊢
  by_cases hr : r = .reset
  · subst hr
    have he : Event.sinceReset (told ++ (s.take .reset).events) = (s.obey .reset).events :=
      Event.sinceReset_reset told Sequencer.not_taken_obey
    refine ⟨hm, hl, ?_, ?_⟩
    · rw [he, Event.commits_of_quiet (s.quiet_obey _), Sequencer.committed_obey]
      rfl
    · rw [he, Event.alerts_eq_nil (s.unread_obey _), Sequencer.fault_obey]
      rfl
  · have hn : .note (.taken .reset) ∉ (s.take r).events := fun hx => hr (Sequencer.reset_mem_take.1 hx)
    refine ⟨hm, hl, ?_, ?_⟩
    · rw [Event.sinceReset_append hn, Event.commits_append, Event.commits_of_quiet (s.quiet_take r),
        List.append_nil, h.commits, Sequencer.committed_obey, if_neg hr]
    · rw [Event.sinceReset_append hn, Event.alerts_append, Event.alerts_eq_nil (s.unread_take r),
        List.append_nil, h.alerts, Sequencer.fault_obey, if_neg hr]

theorem move [Bus μ] {hand last : Option Opcode} {r : Reaction μ} (h : Recorded told s) (ha : s.Announced)
    (ht : s.Tidy) (hm : Move s hand r last) : Recorded (told ++ r.events) r.next := by
  obtain ⟨hc, hl⟩ := (hm.shift ha).isChain h.modes h.last
  refine ⟨hc, hl, ?_, ?_⟩
  · rw [Event.sinceReset_append (Sequencer.not_taken_move hm), Event.commits_append, List.length_append, h.commits, hm.committed]
  · rw [Event.sinceReset_append (Sequencer.not_taken_move hm), Event.alerts_append, h.alerts, hm.fault ha ht]

end Recorded

namespace Course

variable {μ : Type} [Bus μ]

theorem recorded_follow (p : Processor μ) (offers : List (Option Request)) :
    let c := (ofProcessor p).follow offers
    Recorded c.told c.now := by
  refine And.left (And.left (follow_announced (J := fun told s => Recorded told s ∧ s.Tidy) p ?_ ?_ ?_ offers))
  · exact ⟨⟨List.isChain_singleton _, rfl, rfl, rfl⟩, .ofProcessor p⟩
  · intro told s r ⟨h, ht⟩ ha
    refine ⟨h.take ha r, ?_⟩
    rw [Sequencer.next_take]
    exact ht.obey ha r
  · exact fun told s _ _ _ ⟨h, ht⟩ ha hm => ⟨h.move ha ht hm, ht.move ha hm⟩

/-- From idle on, no mode is announced twice in a row, and each leads to the next as the life of a run allows. The
status to be read has the last mode announced, and since the last reset as many commits as it counts and the
alert of its fault, if it has one. -/
theorem status_matches_record (p : Processor μ) (offers : List (Option Request)) :
    let c := (ofProcessor p).follow offers
    let modes := Event.modes c.told
    let recent := Event.sinceReset c.told
    (Mode.idle :: modes).IsChain (fun m n => m ≠ n ∧ n ∈ m.successors) ∧
    c.now.published.mode = modes.getLastD .idle ∧
    c.now.published.committed = (Event.commits recent).length ∧
    c.now.published.fault.toList.map Fault.message = Event.alerts recent := by
  intro c modes recent
  have h := recorded_follow p offers
  have hm : modes.getLastD .idle = c.now.mode := by
    have hl := h.last
    rw [List.getLast?_cons, ← List.getLastD_eq_getLast?] at hl
    exact Option.some.inj hl
  have hp : c.now.published.mode = c.now.mode ∧ c.now.published.committed = c.now.committed ∧
      c.now.published.fault = c.now.fault := by
    rcases silent_or_current p offers with hs | hc
    · rw [hs.published, hs.mode, hs.committed, hs.fault]
      exact ⟨rfl, rfl, rfl⟩
    · rw [hc.published]
      exact ⟨rfl, rfl, rfl⟩
  refine ⟨h.modes.imp fun m n hx => ⟨Mode.ne_of_mem_successors hx, hx⟩, ?_, ?_, ?_⟩
  · rw [hm, hp.1]
  · rw [hp.2.1, h.commits]
  · rw [hp.2.2, h.alerts]

end Course

end Sm83
