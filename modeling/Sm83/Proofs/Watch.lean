import Sm83.Proofs.Course

/-!
The record read again. A watch sees nothing but the events, in their order, and knows from them the mode, what
has become of the run, and the instruction in hand. It agrees with the sequencer at all times.
-/

set_option autoImplicit false

namespace Sm83

inductive Activity where
  | idle | going | paused
  deriving DecidableEq, Repr

/-- `hand` is the instruction decoded last, unless it was committed or its run has ended since; `commits` holds
what was in hand at each commit since the last reset, with the registers told. -/
structure Watch where
  mode : Mode := .idle
  activity : Activity := .idle
  hand : Option Opcode := none
  commits : List (Option Opcode × Registers) := []
  deriving DecidableEq, Repr

namespace Watch

def rest (w : Watch) : Watch := { w with activity := .idle, hand := none }

/-- A start is accepted when there is no run and no fault; a pause or a resume when there is a run. -/
def hear (w : Watch) : Request → Watch
  | .start _ => if w.activity = .idle ∧ w.mode ≠ .halted then { w with activity := .going } else w
  | .stop | .shutdown => w.rest
  | .reset => { w.rest with commits := [] }
  | .adjust .pause => if w.activity = .idle then w else { w with activity := .paused }
  | .adjust .resume => if w.activity = .idle then w else { w with activity := .going }
  | .adjust .singleStep | .adjust (.sticky _) => w
  | .addBreakpoint _ | .removeBreakpoint _ | .queryBreakpoint _ => w

def see (w : Watch) : Event → Watch
  | .entered m => { w with mode := m }
  | .committed regs => { w with hand := none, commits := w.commits ++ [(w.hand, regs)] }
  | .note (.decoded op) => { w with hand := some op }
  | .note (.stoppedAt _) | .note (.faulted _ _) => w.rest
  | .note (.taken r) => w.hear r
  | _ => w

def follow (w : Watch) (es : List Event) : Watch := es.foldl see w

def of (told : List Event) : Watch := follow {} told

@[simp] theorem follow_nil (w : Watch) : w.follow [] = w := rfl

@[simp] theorem follow_cons (w : Watch) (e : Event) (es : List Event) :
    w.follow (e :: es) = (w.see e).follow es := rfl

@[simp] theorem follow_append (w : Watch) (es fs : List Event) :
    w.follow (es ++ fs) = (w.follow es).follow fs := by
  simp [follow]

theorem of_append (es fs : List Event) : of (es ++ fs) = (of es).follow fs := follow_append {} es fs

theorem follow_remarks {es : List Event} (h : ∀ e ∈ es, e.isRemark = true) (w : Watch) : w.follow es = w := by
  induction es with
  | nil => rfl
  | cons e es ih =>
    have he : w.see e = w := by
      have hr := h e (by simp)
      cases e with
      | note n => cases n <;> first | rfl | cases hr
      | _ => first | rfl | cases hr
    rw [follow_cons, he]
    exact ih fun x hx => h x (by simp [hx])

structure Ready (w : Watch) : Prop where
  mode : w.mode = .running
  activity : w.activity = .going
  hand : w.hand ≠ none

def Allows (w : Watch) : List Event → Prop
  | [] => True
  | e :: es => (∀ regs, e = .committed regs → w.Ready) ∧ (w.see e).Allows es

theorem allows_append (w : Watch) (es fs : List Event) :
    w.Allows (es ++ fs) ↔ w.Allows es ∧ (w.follow es).Allows fs := by
  induction es generalizing w with
  | nil => simp [Allows]
  | cons e es ih => simp [Allows, ih, and_assoc]

theorem Allows.ready {w : Watch} {before after : List Event} {regs : Registers}
    (h : w.Allows (before ++ .committed regs :: after)) : (w.follow before).Ready := by
  rw [allows_append] at h
  exact h.2.1 regs rfl

theorem Allows.of_quiet {es : List Event} (h : Quiet es) (w : Watch) : w.Allows es := by
  induction es generalizing w with
  | nil => trivial
  | cons e es ih =>
    rw [quiet_cons] at h
    exact ⟨fun regs hr => absurd hr (h.1 regs), ih h.2 _⟩

end Watch

namespace Sequencer

variable {μ : Type}

def activity (s : Sequencer μ) : Activity :=
  if s.run.active then if s.run.paused then .paused else .going else .idle

theorem activity_eq_idle_iff (s : Sequencer μ) : s.activity = .idle ↔ s.run.active = false := by
  cases ha : s.run.active <;> cases hp : s.run.paused <;> simp [activity, ha, hp]

end Sequencer

/-- What the watch knows, and the instruction in hand, belong to the sequencer; an active run has announced the
mode of its flags. -/
structure Watch.Agrees {μ : Type} (w : Watch) (s : Sequencer μ) (hand : Option Opcode) : Prop where
  mode : w.mode = s.mode
  activity : w.activity = s.activity
  hand : w.hand = if s.run.active then hand else none
  announced : s.run.active = true → s.mode = s.activeMode

namespace Watch

variable {μ : Type}

@[simp] theorem follow_announce (w : Watch) (s : Sequencer μ) (m : Mode) (h : w.mode = s.mode) :
    w.follow (s.announce m).events = { w with mode := m } := by
  rw [Sequencer.events_announce]
  by_cases hm : s.mode = m
  · have hw : w.mode = m := h.trans hm
    simp [hm, ← hw]
  · simp [hm, see]

theorem follow_announceRun (w : Watch) (s : Sequencer μ) (h : w.mode = s.mode) :
    w.follow s.announceRun.events = { w with mode := s.announceRun.next.mode } := by
  by_cases ha : s.run.active = true
  · simp [Sequencer.announceRun, ha, h, Sequencer.next_announce]
  · simp [Sequencer.announceRun, ha, ← h]

@[simp] theorem follow_settle (w : Watch) (s : Sequencer μ) : w.follow s.settle.events = w := by
  simp only [Sequencer.settle]
  split
  · rfl
  · split <;> rfl

namespace Agrees

variable {w : Watch} {s : Sequencer μ} {hand : Option Opcode}

theorem idle (h : w.Agrees s hand) (hs : s.run.active = false) : w.activity = .idle := by
  rw [h.activity, s.activity_eq_idle_iff]
  exact hs

theorem going (h : w.Agrees s hand) (hs : s.run.active = true) : w.activity ≠ .idle := by
  rw [h.activity, ne_eq, s.activity_eq_idle_iff, hs]
  simp

theorem hand_of_active (h : w.Agrees s hand) (hs : s.run.active = true) : w.hand = hand := by
  rw [h.hand, if_pos hs]

end Agrees

end Watch

namespace Watch.Agrees

variable {μ : Type} {w : Watch} {s : Sequencer μ} {hand : Option Opcode}

theorem announceRun (hm : w.mode = s.mode) (ha : w.activity = s.activity)
    (hh : w.hand = if s.run.active then hand else none) :
    (w.follow s.announceRun.events).Agrees s.announceRun.next hand := by
  have hr : s.announceRun.next.run = s.run := s.run_announceRun
  rw [follow_announceRun w s hm]
  refine ⟨rfl, ?_, ?_, ?_⟩
  · simpa [Sequencer.activity, hr] using ha
  · simpa [hr] using hh
  · intro hx
    have hx : s.run.active = true := by rwa [hr] at hx
    rw [s.mode_announceRun, if_pos hx]
    simp [Sequencer.activeMode]

theorem announce (hand : Option Opcode) (m : Mode) (hm : w.mode = s.mode) (hs : s.run.active = false)
    (ha : w.activity = .idle) (hh : w.hand = none) :
    (w.follow (s.announce m).events).Agrees (s.announce m).next hand := by
  rw [follow_announce w s m hm, Sequencer.next_announce]
  refine ⟨rfl, ?_, ?_, ?_⟩
  · simp [Sequencer.activity, hs, ha]
  · simp [hs, hh]
  · simp [hs]

theorem obey (h : w.Agrees s hand) (hs : s.run.active = false → hand = none) (r : Request) :
    ((w.hear r).follow (s.obey r).events).Agrees (s.obey r).next hand := by
  cases r with
  | start debug =>
    by_cases ha : s.run.active = true
    · have hw : w.hear (.start debug) = w := by simp [hear, h.going ha]
      simpa [Sequencer.obey, ha, hw, see] using h
    · have ha : s.run.active = false := by simpa using ha
      by_cases hm : s.mode = .halted
      · have hw : w.hear (.start debug) = w := by simp [hear, h.mode, hm]
        simpa [Sequencer.obey, ha, hm, hw, see] using h
      · -- the instruction that was in hand went with the run before this one
        have hw : w.hear (.start debug) = { w with activity := .going } := by
          simp [hear, h.idle ha, h.mode, hm]
        have hh : w.hand = none := by simpa [ha] using h.hand
        have ho : s.obey (.start debug) = { s with run := .begin debug }.announceRun := by
          simp [Sequencer.obey, ha, hm]
        rw [hw, ho]
        refine announceRun h.mode ?_ ?_
        · simp [Sequencer.activity, Run.begin]
        · simp [Run.begin, hh, hs ha]
  | stop =>
    by_cases ha : s.run.active = true
    · have ho : s.obey .stop = { s with run := {} }.announce .stopped := by
        simp [Sequencer.obey, ha]
      rw [ho]
      exact announce hand _ h.mode rfl rfl rfl
    · -- a stop is heard without a run, too, and finds nothing to change
      have ha : s.run.active = false := by simpa using ha
      have hw : w.hear .stop = w := by
        have hi := h.idle ha
        have hh : w.hand = none := by simpa [ha] using h.hand
        simp [hear, Watch.rest, ← hi, ← hh]
      simpa [Sequencer.obey, ha, hw] using h
  | adjust a =>
    by_cases ha : s.run.active = true
    · have ho : s.obey (.adjust a) = { s with run := s.run.adjust a }.announceRun := by
        simp [Sequencer.obey, ha]
      have hw := h.going ha
      have hh := h.hand_of_active ha
      have hact := h.activity
      rw [ho]
      refine announceRun ?_ ?_ ?_
      · cases a <;> simp [hear, hw, h.mode]
      · cases a with
        | sticky on => cases on <;> exact hact
        | singleStep => exact hact
        | pause => simp [hear, hw, Sequencer.activity, Run.adjust, ha]
        | resume => simp [hear, hw, Sequencer.activity, Run.adjust, ha]
      · cases a <;> simp [hear, hw, ha, hh]
    · have ha : s.run.active = false := by simpa using ha
      have hw : w.hear (.adjust a) = w := by
        cases a <;> simp [hear, h.idle ha]
      simpa [Sequencer.obey, ha, hw, see] using h
  | reset => exact announce hand _ h.mode rfl rfl rfl
  | addBreakpoint a =>
    by_cases hc : s.breakpoints.contains a = true
    · simpa [Sequencer.obey, hc, hear] using h
    · simpa [Sequencer.obey, hc, hear, see] using
        (⟨h.mode, h.activity, h.hand, h.announced⟩ :
          w.Agrees { s with breakpoints := s.breakpoints.insert a } hand)
  | removeBreakpoint a =>
    by_cases hc : s.breakpoints.contains a = true
    · simpa [Sequencer.obey, hc, hear, see] using
        (⟨h.mode, h.activity, h.hand, h.announced⟩ :
          w.Agrees { s with breakpoints := s.breakpoints.erase a } hand)
    · simpa [Sequencer.obey, hc, hear] using h
  | queryBreakpoint a => simpa [Sequencer.obey, hear, see] using h
  | shutdown =>
    refine ⟨h.mode, ?_, ?_, ?_⟩
    · simp [Sequencer.obey, hear, Watch.rest, Sequencer.activity]
    · simp [Sequencer.obey, hear, Watch.rest]
    · simp [Sequencer.obey]

end Watch.Agrees

namespace Watch

variable {μ : Type} {w : Watch} {s : Sequencer μ} {hand : Option Opcode}

theorem follow_take (w : Watch) (s : Sequencer μ) (r : Request) :
    w.follow (s.take r).events = (w.hear r).follow (s.obey r).events := by
  cases r <;> rfl

@[simp] theorem follow_notes (w : Watch) (r : Completion) : w.follow (Sequencer.notes r) = w := by
  have h : ∀ x : Option String,
      w.follow (x.toList.map fun t => .note (.unimplemented t)) = w := by
    intro x
    cases x <;> rfl
  simp only [Sequencer.notes, follow_append, h]
  split
  · split <;> rfl
  · rfl
  · rfl

namespace Agrees

theorem take (h : w.Agrees s hand) (hs : s.run.active = false → hand = none) (r : Request) :
    (w.follow (s.take r).events).Agrees (s.take r).next hand := by
  rw [follow_take, Sequencer.next_take]
  exact h.obey hs r

theorem settle (h : w.Agrees s hand)
    (hs : s.run.active = true → hand = none ∧ s.phase.isSuspended = false) :
    w.Agrees s.settle.next none := by
  rw [Sequencer.next_settle]
  refine ⟨h.mode, h.activity, ?_, ?_⟩
  · by_cases ha : s.run.active = true
    · simp [h.hand, hs ha]
    · simp [h.hand, ha]
  · intro ha
    have hm := h.announced ha
    simpa [Sequencer.activeMode, (hs ha).2] using hm

theorem finish (h : w.Agrees s none) (r : Completion) :
    (w.follow (s.finish r).events).Agrees (s.finish r).next none := by
  cases ho : r.outcome with
  | stop =>
    have hx : w.rest.Agrees { s with run := {} } none := ⟨h.mode, rfl, rfl, by simp⟩
    have hm := announce none .stopped hx.mode rfl rfl rfl
    have he : (s.finish r).events =
        .note (.stoppedAt r.pc) :: ({ s with run := {} }.announce .stopped).events := by
      simp [Sequencer.finish, ho]
    have hn : (s.finish r).next = ({ s with run := {} }.announce .stopped).next.publish := by
      simp [Sequencer.finish, ho]
    rw [he, hn]
    exact ⟨hm.mode, hm.activity, hm.hand, hm.announced⟩
  | proceed =>
    simpa [Sequencer.finish, ho] using
      (⟨h.mode, h.activity, h.hand, h.announced⟩ : w.Agrees s.publish none)
  | unimplemented =>
    simpa [Sequencer.finish, ho] using
      (⟨h.mode, h.activity, h.hand, h.announced⟩ : w.Agrees s.publish none)

theorem decode (h : w.Agrees s none) (op : Opcode) (ha : s.run.active = true) :
    (w.see (.note (.decoded op))).Agrees s (some op) :=
  ⟨h.mode, h.activity, by simp [see, ha], h.announced⟩

theorem lock (h : w.Agrees s none) (f : Fault) :
    (w.follow (s.lock f).events).Agrees (s.lock f).next none := by
  have hx : w.rest.Agrees { s with run := {}, fault := some f } none := ⟨h.mode, rfl, rfl, by simp⟩
  have hm := announce none .halted hx.mode rfl rfl rfl
  have hs := hm.settle (by simp [Sequencer.next_announce])
  simpa [Sequencer.lock, see] using hs

theorem ready {op : Opcode} (h : w.Agrees s (some op)) (hc : s.Clear) : w.Ready := by
  refine ⟨?_, ?_, ?_⟩
  · rw [h.mode, h.announced hc.active]
    simp [Sequencer.activeMode, hc.going, hc.unsuspended]
  · rw [h.activity]
    simp [Sequencer.activity, hc.active, hc.going]
  · rw [h.hand_of_active hc.active]
    simp

end Agrees

variable [Bus μ]

@[simp] theorem follow_check (w : Watch) (s : Sequencer μ) : w.follow s.check.events = w := by
  simp only [Sequencer.check]
  split <;> rfl

theorem follow_retire (w : Watch) (s : Sequencer μ) (op : Opcode) :
    w.follow (s.retire op).events =
      { w with
        hand := none
        commits := w.commits ++ [(w.hand, (s.retire op).next.processor.regs)] } := by
  by_cases hd : s.run.debug = true <;> simp [Sequencer.retire, hd, see]

namespace Agrees

theorem check (h : w.Agrees s none) (hp : s.phase.isSuspended = false) :
    w.Agrees s.check.next none := by
  have hc : s.check.next.phase.isSuspended = false := hp
  refine ⟨h.mode, ?_, by simpa using h.hand, ?_⟩
  · simpa [Sequencer.activity] using h.activity
  · intro ha
    rw [Sequencer.active_check] at ha
    have hm : s.check.next.mode = s.activeMode := h.announced ha
    simpa [Sequencer.activeMode, hp, hc] using hm

theorem retire {op : Opcode} (h : w.Agrees s (some op)) (hp : s.phase.isSuspended = false) :
    (w.follow (s.retire op).events).Agrees (s.retire op).next none := by
  have hc : (s.retire op).next.phase.isSuspended = false := hp
  rw [follow_retire]
  refine ⟨h.mode, ?_, by simp, ?_⟩
  · simpa [Sequencer.activity] using h.activity
  · intro ha
    rw [Sequencer.active_retire] at ha
    have hm : (s.retire op).next.mode = s.activeMode := h.announced ha
    simpa [Sequencer.activeMode, hp, hc] using hm

theorem commit {op : Opcode} (h : w.Agrees s (some op)) (hc : s.Clear) :
    (w.follow (s.commit op).events).Agrees (s.commit op).next none := by
  have hr := h.retire hc.unsuspended
  have hf := hr.finish (s.processor.execute op).1
  rw [Sequencer.commit_eq]
  simp only [Reaction.events_andThen, Reaction.next_andThen, follow_append, follow_settle]
  refine hf.settle fun _ => ⟨rfl, ?_⟩
  rw [Sequencer.phase_finish]
  exact hc.unsuspended

theorem move {last : Option Opcode} {r : Reaction μ} (h : w.Agrees s hand) (hm : Move s hand r last) :
    (w.follow r.events).Agrees r.next last := by
  cases hm with
  | drop r hp =>
    have hn : (s.react (some r)).next = s := by simp [Sequencer.react, hp]
    have hw : w.follow (s.react (some r)).events = w := by
      cases r <;> simp [Sequencer.react, hp, see]
    rw [hn, hw]
    exact h
  | settle hs =>
    rw [follow_settle]
    exact h.settle hs
  | @decode op hp ha hd =>
    have hc := h.check (by simp [hp, Phase.isSuspended])
    simpa using hc.decode op (by simpa using ha)
  | @lock f hp ha hd =>
    have hc := h.check (by simp [hp, Phase.isSuspended])
    simpa using hc.lock f
  | pause ha hp =>
    refine ⟨h.mode, h.activity, h.hand, fun _ => ?_⟩
    have hm := h.announced ha
    simpa [Sequencer.activeMode, hp] using hm
  | suspend ha hp hd hr => exact announceRun h.mode h.activity h.hand
  | release hp hr => exact announceRun h.mode h.activity h.hand
  | commit hc => exact h.commit hc

theorem moves {last : Option Opcode} {r : Reaction μ} (h : w.Agrees s hand) (hm : Moves s hand r last) :
    (w.follow r.events).Agrees r.next last := by
  induction hm with
  | refl => exact h
  | tail _ hm ih => simpa using ih.move hm

end Agrees

theorem allows_commit (h : w.Ready) (s : Sequencer μ) (op : Opcode) : w.Allows (s.commit op).events := by
  have hs : Quiet (if s.run.debug then [.note (.showing s.processor.regs)] else []) := by
    split <;> simp
  have hw : w.follow (if s.run.debug then [.note (.showing s.processor.regs)] else []) = w := by
    split <;> rfl
  have hn := Sequencer.quiet_notes (s.processor.execute op).1
  rw [Sequencer.commit_eq]
  simp only [Reaction.events_andThen, Reaction.next_andThen, allows_append, Sequencer.retire,
    follow_append, hw, follow_notes]
  refine ⟨⟨⟨⟨.of_quiet hs w, .of_quiet hn w⟩, ⟨fun _ _ => h, trivial⟩⟩, ?_⟩, ?_⟩
  · exact .of_quiet (by simp) _
  · exact .of_quiet (by simp) _

theorem Agrees.allows {last : Option Opcode} {r : Reaction μ} (h : w.Agrees s hand)
    (hm : Move s hand r last) : w.Allows r.events := by
  rcases hm.quiet_or_commit with hq | ⟨op, rfl, rfl, rfl, hc⟩
  · exact .of_quiet hq w
  · exact allows_commit (h.ready hc) s op

end Watch

namespace Course

variable {μ : Type} [Bus μ]

theorem watched (p : Processor μ) (offers : List (Option Request)) :
    let c := (ofProcessor p).follow offers
    (Watch.of c.told).Agrees c.now c.now.phase.held? ∧ Watch.Allows {} c.told := by
  refine follow_holds (J := fun _ told s hand =>
    (Watch.of told).Agrees s hand ∧ Watch.Allows {} told) p ?_ ?_ ?_ offers
  · exact ⟨⟨rfl, rfl, rfl, by simp [Sequencer.ofProcessor]⟩, trivial⟩
  · intro _ told s hand r h hs
    rw [Watch.of_append, Watch.allows_append]
    exact ⟨h.1.take hs r, h.2, .of_quiet (s.quiet_take r) _⟩
  · intro _ told s hand r last h hm
    rw [Watch.of_append, Watch.allows_append]
    exact ⟨h.1.move hm, h.2, h.1.allows hm⟩

end Course

end Sm83
