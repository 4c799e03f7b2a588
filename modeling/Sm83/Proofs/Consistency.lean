import Sm83.Proofs.StepGate
import Sm83.Proofs.Watch
import Sm83.Sequencer.Loop

/-!
What a sequencer keeps more than once belongs together: the mode and the flags of its run, the phase, and the
fault. This holds as long as it has not been told to leave.
-/

set_option autoImplicit false

namespace Sm83

namespace Sequencer

variable {μ : Type} {s : Sequencer μ}

def Announced (s : Sequencer μ) : Prop := s.run.active = true → s.mode = s.activeMode

theorem Announced.ne_halted (h : s.Announced) (ha : s.run.active = true) : s.mode ≠ .halted := by
  rw [h ha]
  exact s.activeMode_ne_halted

@[simp] theorem leaving_announceRun (s : Sequencer μ) : s.announceRun.next.leaving = s.leaving := by
  by_cases h : s.run.active = true <;> simp [announceRun, h, next_announce]

theorem leaving_obey (s : Sequencer μ) (r : Request) :
    (s.obey r).next.leaving = (s.leaving || r == .shutdown) := by
  cases r with
  | start debug =>
    simp only [obey]
    split
    · simp
    · split <;> simp
  | stop => simp only [obey]; split <;> simp [next_announce]
  | adjust a => simp only [obey]; split <;> simp
  | addBreakpoint a => simp only [obey]; split <;> simp
  | removeBreakpoint a => simp only [obey]; split <;> simp
  | queryBreakpoint a => simp [obey]
  | reset => simp [obey, next_announce]
  | shutdown => simp [obey]

@[simp] theorem leaving_finish (s : Sequencer μ) (r : Completion) :
    (s.finish r).next.leaving = s.leaving := by
  cases ho : r.outcome <;> simp [finish, ho, next_announce, publish]

@[simp] theorem leaving_lock (s : Sequencer μ) (f : Fault) : (s.lock f).next.leaving = s.leaving := by
  simp [lock, next_settle, next_announce]

end Sequencer

theorem Move.leaving {μ : Type} [Bus μ] {s : Sequencer μ} {hand last : Option Opcode} {r : Reaction μ}
    (hm : Move s hand r last) : r.next.leaving = s.leaving := by
  cases hm with
  | drop r hp => simp [Sequencer.react, hp]
  | settle hs => simp [Sequencer.next_settle]
  | decode hp ha hd => rfl
  | lock hp ha hd => simp [Sequencer.check]
  | pause ha hp => rfl
  | suspend ha hp hd hr => simp
  | release hp hr => simp
  | commit hc => simp [Sequencer.commit_eq, Sequencer.next_settle, Sequencer.retire]

namespace Course

variable {μ : Type} [Bus μ]

theorem leaving_meet (c : Course μ) (o : Option Request) (h : o ≠ some .shutdown) :
    (c.meet o).now.leaving = c.now.leaving := by
  refine @Sequencer.react_keeps μ _ (fun _ s _ => s.leaving = c.now.leaving) ?_ [] c.now o
    (fun _ => rfl) ?_
  · intro _ s hand r last hs hm
    rw [hm.leaving, hs]
  · intro r hr _
    rw [Sequencer.next_take, Sequencer.leaving_obey]
    have hx : r ≠ .shutdown := by
      rintro rfl
      exact h hr
    simp [hx]

theorem staying_follow {c : Course μ} (hc : c.now.leaving = false) {offers : List (Option Request)}
    (h : some .shutdown ∉ offers) : (c.follow offers).now.leaving = false := by
  induction offers generalizing c with
  | nil => exact hc
  | cons o os ih =>
    obtain ⟨ho, hos⟩ : some .shutdown ≠ o ∧ some .shutdown ∉ os := by simpa using h
    refine ih ?_ hos
    rw [c.leaving_meet o (Ne.symm ho), hc]

/-- What the beginning has, and requests and moves keep where the mode is announced, holds all along. -/
theorem follow_announced {J : List Event → Sequencer μ → Prop} (p : Processor μ)
    (start : J [] (.ofProcessor p))
    (take : ∀ told s r, J told s → s.Announced → J (told ++ (s.take r).events) (s.take r).next)
    (move : ∀ told s hand r last, J told s → s.Announced → Move s hand r last →
      J (told ++ r.events) r.next)
    (offers : List (Option Request)) :
    let c := (ofProcessor p).follow offers
    J c.told c.now ∧ c.now.Announced := by
  have h := follow_holds (J := fun _ told s hand => (Watch.of told).Agrees s hand ∧ J told s) p
    ⟨⟨rfl, rfl, rfl, by simp [Sequencer.ofProcessor]⟩, start⟩ ?_ ?_ offers
  · exact ⟨h.2, h.1.announced⟩
  · intro _ told s hand r h hs
    obtain ⟨ha, hj⟩ := h
    rw [Watch.of_append]
    exact ⟨ha.take hs r, take told s r hj ha.announced⟩
  · intro _ told s hand r last h hm
    obtain ⟨ha, hj⟩ := h
    rw [Watch.of_append]
    exact ⟨ha.move hm, move told s hand r last hj ha.announced hm⟩

end Course

/-- A run that is over leaves no flag and no mode of a run behind, a fault comes with its mode, and only a
sequencer told to leave is gone. -/
structure Sequencer.Tidy {μ : Type} (s : Sequencer μ) : Prop where
  ended : s.leaving = false → s.run.active = false → s.run = {} ∧ s.mode.isActive = false
  fault : s.fault.isSome = true ↔ s.mode = .halted
  gone : s.phase = .gone → s.leaving = true

namespace Sequencer.Tidy

variable {μ : Type} {s : Sequencer μ}

theorem ofProcessor (p : Processor μ) : (Sequencer.ofProcessor p).Tidy :=
  ⟨fun _ _ => ⟨rfl, rfl⟩, by simp [Sequencer.ofProcessor], by simp [Sequencer.ofProcessor]⟩

theorem announce {m : Mode} (hr : s.run = {}) (hm : m.isActive = false)
    (hf : s.fault.isSome = true ↔ m = .halted) (hg : s.phase = .gone → s.leaving = true) :
    (s.announce m).next.Tidy := by
  rw [next_announce]
  exact ⟨fun _ _ => ⟨hr, hm⟩, hf, hg⟩

theorem announceRun (h : s.Tidy) (hm : s.run.active = true → s.mode ≠ .halted) :
    s.announceRun.next.Tidy := by
  by_cases ha : s.run.active = true
  · have hf : s.fault.isSome = false := by
      cases hf : s.fault.isSome with
      | false => rfl
      | true => exact absurd (h.fault.1 hf) (hm ha)
    have hr : s.announceRun = s.announce s.activeMode := by simp [Sequencer.announceRun, ha]
    rw [hr, next_announce]
    refine ⟨fun _ hx => by simp [ha] at hx, ?_, h.gone⟩
    simp [hf, s.activeMode_ne_halted]
  · have hr : s.announceRun = ⟨s, []⟩ := by simp [Sequencer.announceRun, ha]
    rw [hr]
    exact h

theorem fault_eq_none (h : s.Tidy) (hm : s.mode ≠ .halted) : s.fault.isSome = false := by
  simpa [hm] using h.fault

theorem withRun (h : s.Tidy) {run : Run} (ha : run.active = true) : { s with run }.Tidy :=
  ⟨fun _ hx => by simp [ha] at hx, h.fault, h.gone⟩

theorem withPhase (h : s.Tidy) {phase : Phase} (hg : phase = .gone → s.leaving = true) :
    { s with phase }.Tidy := ⟨h.ended, h.fault, hg⟩

theorem stop (h : s.Tidy) (hm : s.mode ≠ .halted) : ({ s with run := {} }.announce .stopped).next.Tidy :=
  announce rfl rfl (by simp [h.fault_eq_none hm]) h.gone

theorem obey (h : s.Tidy) (ha : s.Announced) (r : Request) : (s.obey r).next.Tidy := by
  cases r with
  | start debug =>
    by_cases hx : s.run.active = true
    · simpa [Sequencer.obey, hx] using h
    · by_cases hm : s.mode = .halted
      · simpa [Sequencer.obey, hx, hm] using h
      · have hr : { s with run := .begin debug }.Tidy := h.withRun rfl
        simpa [Sequencer.obey, hx, hm] using hr.announceRun fun _ => hm
  | stop =>
    by_cases hx : s.run.active = true
    · simpa [Sequencer.obey, hx] using h.stop (ha.ne_halted hx)
    · simpa [Sequencer.obey, hx] using h
  | adjust a =>
    by_cases hx : s.run.active = true
    · have hr : { s with run := s.run.adjust a }.Tidy := h.withRun (by simpa using hx)
      simpa [Sequencer.obey, hx] using hr.announceRun fun _ => ha.ne_halted hx
    · simpa [Sequencer.obey, hx] using h
  | reset => exact announce rfl rfl (by simp) h.gone
  | addBreakpoint a =>
    simp only [Sequencer.obey]
    split
    · exact h
    · exact ⟨h.ended, h.fault, h.gone⟩
  | removeBreakpoint a =>
    simp only [Sequencer.obey]
    split
    · exact ⟨h.ended, h.fault, h.gone⟩
    · exact h
  | queryBreakpoint a => exact h
  | shutdown => exact ⟨by simp [Sequencer.obey], h.fault, fun _ => rfl⟩

theorem finish (h : s.Tidy) (hm : s.mode ≠ .halted) (r : Completion) : (s.finish r).next.Tidy := by
  cases ho : r.outcome with
  | stop =>
    have hs := h.stop hm
    simpa [Sequencer.finish, ho] using (⟨hs.ended, hs.fault, hs.gone⟩ : (publish _).Tidy)
  | proceed => simpa [Sequencer.finish, ho] using (⟨h.ended, h.fault, h.gone⟩ : s.publish.Tidy)
  | unimplemented => simpa [Sequencer.finish, ho] using (⟨h.ended, h.fault, h.gone⟩ : s.publish.Tidy)

theorem settle (h : s.Tidy) : s.settle.next.Tidy := by
  rw [next_settle]
  refine h.withPhase ?_
  unfold between
  split
  next hl => exact fun _ => hl
  next => split <;> simp

theorem lock (h : s.Tidy) (f : Fault) : (s.lock f).next.Tidy := by
  have hx : ({ s with run := {}, fault := some f }.announce .halted).next.Tidy :=
    announce rfl rfl (by simp) h.gone
  simpa [Sequencer.lock] using hx.settle

variable [Bus μ]

theorem check (h : s.Tidy) (hx : s.run.active = true) : s.check.next.Tidy :=
  ⟨fun _ hy => by simp [hx] at hy, h.fault, h.gone⟩

theorem move {hand last : Option Opcode} {r : Reaction μ} (h : s.Tidy) (ha : s.Announced)
    (hm : Move s hand r last) : r.next.Tidy := by
  cases hm with
  | drop r hp => simpa [react, hp] using h
  | settle hs => exact h.settle
  | decode hp hx hd => exact h.check hx
  | lock hp hx hd => exact (h.check hx).lock _
  | pause hx hp => exact h.withPhase (by simp)
  | suspend hx hp hd hr => exact (h.withPhase (by simp)).announceRun fun _ => ha.ne_halted hx
  | release hp hr => exact (h.withPhase (by simp)).announceRun fun hx => ha.ne_halted hx
  | @commit op hc =>
    have hr : (s.retire op).next.Tidy :=
      ⟨fun _ hy => by simp [hc.active] at hy, h.fault, h.gone⟩
    rw [commit_eq]
    exact (hr.finish (ha.ne_halted hc.active) _).settle

end Sequencer.Tidy

/-- How the mode, the flags of the run, the phase and the fault belong together. -/
structure Sequencer.Consistent {μ : Type} (s : Sequencer μ) : Prop where
  active : s.run.active = s.mode.isActive
  ended : s.run.active = false → s.run = {}
  sticky : s.run.armed = true → s.run.sticky = true
  debug : s.run.sticky = true → s.run.debug = true
  mode : s.run.active = true → s.mode =
    if s.run.paused then .paused else if s.phase.isSuspended && s.run.armed then .stepping else .running
  fault : s.fault.isSome = true ↔ s.mode = .halted
  suspended : s.phase.isSuspended = true → s.run.active = true ∧ ∃ op, s.phase = .held op .step
  started : ∀ debug, (s.obey (.start debug)).next.run ≠ s.run → s.phase.isSuspended = false
  blocked : (⟨s, []⟩ : Loop μ).isBlocked = true → s.run.active = true →
    s.mode = .paused ∨ s.mode = .stepping

namespace Sequencer

variable {μ : Type} {s : Sequencer μ}

theorem isActive_activeMode (s : Sequencer μ) : s.activeMode.isActive = true := by
  unfold activeMode
  split
  · rfl
  · split <;> rfl

theorem active_of_suspended (hf : s.phase.Fits s.run) (h : s.phase.isSuspended = true) :
    s.run.active = true ∧ ∃ op, s.phase = .held op .step := by
  cases hp : s.phase with
  | held op hold =>
    cases hold with
    | pause => simp [hp, Phase.isSuspended] at h
    | step =>
      rw [hp] at hf
      exact ⟨hf.1, op, rfl⟩
  | _ => simp [hp, Phase.isSuspended] at h

theorem mode_of_blocked (hf : s.phase.Fits s.run) (hm : s.Announced) (hl : s.phase ≠ .gone)
    (hb : (⟨s, []⟩ : Loop μ).isBlocked = true) (ha : s.run.active = true) :
    s.mode = .paused ∨ s.mode = .stepping := by
  rw [hm ha]
  cases hp : s.phase with
  | rest =>
    rw [hp] at hf
    simp [Phase.Fits, ha] at hf
  | gather => simp [Loop.isBlocked, hp] at hb
  | held op hold =>
    rw [hp] at hf
    cases hold with
    | pause => exact .inl (by simp [activeMode, hf.2])
    | step =>
      by_cases hx : s.run.paused = true
      · exact .inl (by simp [activeMode, hx])
      · exact .inr (by simp [activeMode, hx, hp, Phase.isSuspended, hf.2])
  | gone => exact absurd hp hl

end Sequencer

namespace Course

variable {μ : Type} [Bus μ]

theorem tidy_follow (p : Processor μ) (offers : List (Option Request)) :
    let s := ((ofProcessor p).follow offers).now
    s.Tidy ∧ s.Announced := by
  refine follow_announced (J := fun _ s => s.Tidy) p (.ofProcessor p) ?_ ?_ offers
  · intro _ s r h ha
    rw [Sequencer.next_take]
    exact h.obey ha r
  · exact fun _ s _ _ _ h ha hm => h.move ha hm

/-- Whatever was offered, and whenever, if a shutdown was not: the sequencer is consistent. -/
theorem consistent_follow (p : Processor μ) (offers : List (Option Request)) (h : some .shutdown ∉ offers) :
    ((ofProcessor p).follow offers).now.Consistent := by
  obtain ⟨ht, hm⟩ := tidy_follow p offers
  have hl : ((ofProcessor p).follow offers).now.leaving = false := staying_follow rfl h
  have hf := fits_follow p offers
  have hc := coherent_follow p offers
  generalize ((ofProcessor p).follow offers).now = s at ht hm hl hf hc ⊢
  refine ⟨?_, fun ha => (ht.ended hl ha).1, hc.sticky, hc.debug, hm, ht.fault, s.active_of_suspended hf, ?_, ?_⟩
  · cases ha : s.run.active with
    | true => rw [hm ha, s.isActive_activeMode]
    | false => rw [(ht.ended hl ha).2]
  · intro debug hs
    cases hx : s.phase.isSuspended with
    | false => rfl
    | true =>
      have ha := (s.active_of_suspended hf hx).1
      simp [Sequencer.run_obey, ha] at hs
  · refine s.mode_of_blocked hf hm ?_
    intro hg
    simp [ht.gone hg] at hl

/-- A breakpoint holds the first instruction, and the run is paused meanwhile. -/
theorem consistent_follow_at_entry :
    let offers : List (Option Request) :=
      [some (.addBreakpoint 0x0100), some (.start false), none, some (.adjust .pause)]
    some .shutdown ∉ offers ∧ ((ofProcessor { bus := Ram.empty }).follow offers).now.Consistent := by
  intro offers
  have h : some .shutdown ∉ offers := by decide
  exact ⟨h, consistent_follow _ offers h⟩

end Course

end Sm83
