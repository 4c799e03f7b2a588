import Sm83.Bus.Ram
import Sm83.Proofs.Announcements
import Sm83.Proofs.Course

/-!
Commits are gated by stepping. At a breakpoint, and while stepping is sticky, an instruction is committed only
once it was let go; anywhere else it does not wait for a step, whatever is asked of the sequencer meanwhile.
-/

set_option autoImplicit false

namespace Sm83

namespace Request

def frees : Request → Bool
  | .adjust .singleStep | .adjust (.sticky false) => true
  | _ => false

def isInert : Request → Bool
  | .start _ | .adjust .pause | .adjust .resume | .adjust (.sticky true) => true
  | .addBreakpoint _ | .removeBreakpoint _ | .queryBreakpoint _ => true
  | _ => false

end Request

namespace Run

/-- Only sticky stepping arms a step, and stepping is debugging. -/
structure Coherent (r : Run) : Prop where
  sticky : r.armed = true → r.sticky = true
  debug : r.sticky = true → r.debug = true

structure Bars (r : Run) : Prop where
  active : r.active = true
  debug : r.debug = true
  armed : r.armed = true

theorem coherent_default : Coherent {} := ⟨by simp, by simp⟩

theorem coherent_begin (debug : Bool) : (begin debug).Coherent := ⟨by simp [begin], by simp [begin]⟩

theorem coherent_meetBreakpoint (r : Run) : r.meetBreakpoint.Coherent :=
  ⟨by simp [meetBreakpoint], by simp [meetBreakpoint]⟩

variable {r : Run}

theorem Coherent.adjust (h : r.Coherent) (a : Adjustment) : (r.adjust a).Coherent := by
  cases a with
  | pause => exact ⟨h.sticky, h.debug⟩
  | resume => exact ⟨h.sticky, h.debug⟩
  | singleStep => exact ⟨by simp [Run.adjust], by simp [Run.adjust]⟩
  | sticky on => cases on <;> exact ⟨by simp [Run.adjust], by simp [Run.adjust]⟩

theorem Coherent.rearm (h : r.Coherent) : r.rearm.Coherent := by
  unfold Run.rearm
  split
  next hs => exact ⟨fun _ => hs, h.debug⟩
  next => exact h

theorem Coherent.disarm (h : r.Coherent) : { r with armed := false }.Coherent :=
  ⟨by simp, h.debug⟩

theorem armed_adjust (h : r.armed = false) (a : Adjustment) : (r.adjust a).armed = false := by
  cases a with
  | sticky on =>
    cases on with
    | true => exact h
    | false => rfl
  | singleStep => rfl
  | _ => exact h

theorem Coherent.leave (h : r.Coherent) : { r with active := false }.Coherent := ⟨h.sticky, h.debug⟩

end Run

namespace Sequencer

variable {μ : Type} {s : Sequencer μ}

theorem coherent_obey (h : s.run.Coherent) (r : Request) : (s.obey r).next.run.Coherent :=
  s.run_obey_keeps r h Run.coherent_default Run.coherent_begin h.adjust h.leave

theorem bars_obey {r : Request} (h : s.run.Bars) (hf : r.frees = false) :
    (s.obey r).next.run.Bars ∨ r.isInert = false ∧ (s.obey r).next.run.active = false := by
  have ha := h.active
  rw [run_obey]
  cases r with
  | start debug => simpa [ha] using h
  | stop => exact .inr ⟨rfl, by simp [ha]⟩
  | adjust a =>
    refine .inl ?_
    simp only [ha, if_true]
    cases a with
    | singleStep => cases hf
    | sticky on =>
      cases on with
      | true => exact ⟨ha, rfl, h.armed⟩
      | false => cases hf
    | _ => exact ⟨ha, h.debug, h.armed⟩
  | reset => exact .inr ⟨rfl, rfl⟩
  | shutdown => exact .inr ⟨rfl, rfl⟩
  | _ => exact .inl h

theorem armed_obey (h : s.run.armed = false) (r : Request) : (s.obey r).next.run.armed = false :=
  s.run_obey_keeps (P := fun x => x.armed = false) r h rfl (fun _ => rfl) (Run.armed_adjust h) h

variable [Bus μ]

theorem coherent_check (h : s.run.Coherent) : s.check.next.run.Coherent := by
  simp only [check]
  split
  · exact (Run.coherent_meetBreakpoint s.run).rearm
  · exact h.rearm

theorem coherent_retire (h : s.run.Coherent) (op : Opcode) : (s.retire op).next.run.Coherent := by
  simp only [retire]
  split
  · exact h.disarm
  · exact h

end Sequencer

theorem Move.coherent {μ : Type} [Bus μ] {s : Sequencer μ} {hand last : Option Opcode} {r : Reaction μ}
    (hm : Move s hand r last) (h : s.run.Coherent) : r.next.run.Coherent := by
  cases hm with
  | drop r hp => simpa [Sequencer.react, hp] using h
  | settle hs => simpa [Sequencer.next_settle] using h
  | decode hp ha hd => exact Sequencer.coherent_check h
  | lock hp ha hd =>
    simpa [Sequencer.lock, Sequencer.next_settle, Sequencer.next_announce] using Run.coherent_default
  | pause ha hp => exact h
  | suspend ha hp hd hr => simpa using h
  | release hp hr => simpa using h
  | @commit op hc =>
    rw [Sequencer.commit_eq]
    simp only [Reaction.next_andThen, Sequencer.next_settle, Sequencer.run_finish]
    split
    · exact Run.coherent_default
    · exact Sequencer.coherent_retire h op

theorem Course.coherent_follow {μ : Type} [Bus μ] (p : Processor μ) (offers : List (Option Request)) :
    ((ofProcessor p).follow offers).now.run.Coherent := by
  refine follow_holds (J := fun _ _ s _ => s.run.Coherent) p ?_ ?_ ?_ offers
  · exact Run.coherent_default
  · intro _ _ s _ r h _
    rw [Sequencer.next_take]
    exact Sequencer.coherent_obey h r
  · exact fun _ _ _ _ _ _ h hm => hm.coherent h

theorem Quiet.split {es fs before after : List Event} {regs : Registers} (h : Quiet es)
    (he : es ++ fs = before ++ .committed regs :: after) :
    ∃ later, before = es ++ later ∧ fs = later ++ .committed regs :: after := by
  rcases List.append_eq_append_iff.1 he with ⟨later, hb, hf⟩ | ⟨early, hs, _⟩
  · exact ⟨later, hb, hf⟩
  · cases early with
    | nil => exact ⟨[], by simpa using hs.symm, by simp_all⟩
    | cons e early =>
      have hc : e = .committed regs := by simp_all
      exact absurd (by simp [hs, hc]) (h regs)

namespace Sequencer

variable {μ : Type} [Bus μ] {s : Sequencer μ} {op : Opcode}

/-- Goes on with an instruction that is held back, as long as it is. -/
def wait (s : Sequencer μ) : List (Option Request) → Reaction μ
  | [] => ⟨s, []⟩
  | o :: os =>
    match s.phase.held? with
    | none => ⟨s, []⟩
    | some _ => (s.react o).andThen (·.wait os)

/-- Begins an instruction and takes the offers made while it is held back. -/
def iterate (s : Sequencer μ) (offers : List (Option Request)) : Reaction μ :=
  (s.react none).andThen (·.wait offers)

theorem wait_of_free (h : s.phase.held? = none) (os : List (Option Request)) :
    s.wait os = ⟨s, []⟩ := by
  cases os with
  | nil => rfl
  | cons o os => simp [wait, h]

theorem wait_cons (h : s.phase.held? = some op) (o : Option Request) (os : List (Option Request)) :
    s.wait (o :: os) = (s.react o).andThen (·.wait os) := by
  simp [wait, h]

structure Barred (s : Sequencer μ) (op : Opcode) : Prop where
  held : s.phase.held? = some op
  run : s.run.Bars

theorem barred_consider (h : s.run.Bars) (op : Opcode) :
    (s.consider op).next.Barred op ∧ Quiet (s.consider op).events := by
  have ha := h.active
  have hd := h.debug
  have hr := h.armed
  by_cases hp : s.run.paused = true
  · have hc : s.consider op = ⟨{ s with phase := .held op .pause }, []⟩ := by
      simp [consider, ha, hp]
    rw [hc]
    exact ⟨⟨rfl, h⟩, by simp⟩
  · have hc : s.consider op = { s with phase := .held op .step }.announceRun := by
      simp [consider, ha, hp, hd, hr]
    rw [hc]
    exact ⟨⟨by simp [Phase.held?], by simpa using h⟩, by simp⟩

theorem barred_react (h : s.Barred op) {r : Request} (hf : r.frees = false) :
    Quiet (s.react (some r)).events ∧
      ((s.react (some r)).next.Barred op ∨
        r.isInert = false ∧ (s.react (some r)).next.phase.held? = none) := by
  have hb := bars_obey h.run hf
  rw [← next_take] at hb
  cases hp : s.phase with
  | held x hold =>
    obtain rfl : x = op := by simpa [hp, Phase.held?] using h.held
    have ht : (s.take r).next.phase.held? = some x := by rw [phase_take, hp]; rfl
    cases hold with
    | pause =>
      simp only [react, hp, Reaction.next_andThen, Reaction.events_andThen, quiet_append]
      rcases hb with hb | ⟨hi, ha⟩
      · split
        · exact ⟨⟨quiet_take s r, by simp⟩, .inl ⟨ht, hb⟩⟩
        · have hc := barred_consider hb x
          exact ⟨⟨quiet_take s r, hc.2⟩, .inl hc.1⟩
      · simp [ha, consider_of_inactive ha, hi]
    | step =>
      simp only [react, hp, Reaction.next_andThen, Reaction.events_andThen, quiet_append]
      rcases hb with hb | ⟨hi, ha⟩
      · have hk : ((s.take r).next.run.active && (s.take r).next.run.armed) = true := by
          simp [hb.active, hb.armed]
        simp only [hk, if_true]
        exact ⟨⟨quiet_take s r, by simp⟩, .inl ⟨ht, hb⟩⟩
      · have hc : ({ (s.take r).next with phase := .gather }.announceRun.next.consider x) =
            ({ (s.take r).next with phase := .gather }.announceRun.next.settle) :=
          consider_of_inactive (by simpa using ha) x
        simp [ha, hc, hi]
  | _ =>
    have hh := h.held
    simp [hp, Phase.held?] at hh

theorem react_none_of_held (h : s.phase.held? = some op) : s.react none = ⟨s, []⟩ := by
  cases hp : s.phase with
  | held x hold => cases hold <;> simp [react, hp]
  | _ => simp [hp, Phase.held?] at h

theorem note_of_frees (h : s.phase.held? = some op) {r : Request} (hf : r.frees = true) :
    ∃ es, (s.react (some r)).events = .note (.taken r) :: es := by
  have hg : s.phase ≠ .gone := by
    intro hp
    simp [hp, Phase.held?] at h
  obtain ⟨t, _, he⟩ := s.moves_take r hg
  refine ⟨(s.obey r).events ++ t.events, ?_⟩
  rw [he]
  cases r with
  | adjust a => rfl
  | _ => cases hf

theorem freed_of_commit (h : s.Barred op) (os : List (Option Request)) {before after : List Event}
    {regs : Registers} (he : (s.wait os).events = before ++ .committed regs :: after) :
    ∃ r, r.frees = true ∧ .note (.taken r) ∈ before := by
  induction os generalizing s before with
  | nil => simp [wait] at he
  | cons o os ih =>
    rw [wait_cons h.held, Reaction.events_andThen] at he
    cases o with
    | none =>
      rw [react_none_of_held h.held] at he
      exact ih h he
    | some r =>
      cases hf : r.frees with
      | true =>
        -- that it was taken is told first of all
        obtain ⟨es, hes⟩ := note_of_frees h.held hf
        rw [hes] at he
        cases before with
        | nil => simp at he
        | cons e before =>
          have hn : e = .note (.taken r) := by simp_all
          exact ⟨r, hf, by simp [hn]⟩
      | false =>
        obtain ⟨hq, hb⟩ := barred_react h hf
        obtain ⟨later, hl, hw⟩ := hq.split he
        rcases hb with hb | ⟨_, hb⟩
        · obtain ⟨x, hx, hm⟩ := ih hb hw
          exact ⟨x, hx, by simp [hl, hm]⟩
        · rw [wait_of_free hb] at hw
          simp at hw

theorem frees_of_isInert {r : Request} (h : r.isInert = true) : r.frees = false := by
  cases r with
  | adjust a =>
    cases a with
    | sticky on => cases on <;> simp_all [Request.isInert, Request.frees]
    | _ => simp_all [Request.isInert, Request.frees]
  | _ => rfl

theorem barred_wait (h : s.Barred op) {os : List (Option Request)}
    (ho : ∀ r, some r ∈ os → r.isInert = true) :
    (s.wait os).next.Barred op ∧ Quiet (s.wait os).events := by
  induction os generalizing s with
  | nil => exact ⟨h, by simp [wait]⟩
  | cons o os ih =>
    have hos : ∀ r, some r ∈ os → r.isInert = true := fun r hr => ho r (by simp [hr])
    rw [wait_cons h.held, Reaction.events_andThen, Reaction.next_andThen, quiet_append]
    cases o with
    | none =>
      rw [react_none_of_held h.held]
      have hi := ih h hos
      exact ⟨hi.1, by simp, hi.2⟩
    | some r =>
      have hr := ho r (by simp)
      obtain ⟨hq, hb⟩ := barred_react h (frees_of_isInert hr)
      have hb := hb.resolve_right (by simp [hr])
      have hi := ih hb hos
      exact ⟨hi.1, hq, hi.2⟩

theorem bars_check (h : s.run.Coherent) (ha : s.run.active = true)
    (hb : s.atBreakpoint = true ∨ s.run.sticky = true) : s.check.next.run.Bars := by
  by_cases hx : s.atBreakpoint = true
  · have hc : s.check.next.run = s.run.meetBreakpoint.rearm := by simp [check, hx]
    rw [hc]
    exact ⟨ha, rfl, rfl⟩
  · have hs := hb.resolve_left hx
    have hc : s.check.next.run = { s.run with armed := true } := by simp [check, hx, Run.rearm, hs]
    rw [hc]
    exact ⟨ha, h.debug hs, rfl⟩

/-- In a paused run nothing makes the instruction wait for a step as long as it is held back. -/
structure Loose (s : Sequencer μ) (op : Opcode) : Prop where
  phase : s.phase = .held op .pause
  run : s.run.armed = false

theorem loose_consider (h : s.run.armed = false) (op : Opcode) :
    .entered .stepping ∉ (s.consider op).events ∧
      ((s.consider op).next.Loose op ∨ (s.consider op).next.phase.held? = none) := by
  refine ⟨fun he => by simpa [h] using entered_consider he, ?_⟩
  by_cases ha : s.run.active = true
  · by_cases hp : s.run.paused = true
    · have hc : s.consider op = ⟨{ s with phase := .held op .pause }, []⟩ := by
        simp [consider, ha, hp]
      rw [hc]
      exact .inl ⟨rfl, h⟩
    · have hc : s.consider op = s.commit op := by simp [consider, ha, hp, h]
      rw [hc]
      exact .inr (phase_commit s op).2
  · rw [consider_of_inactive (by simpa using ha)]
    exact .inr s.held?_settle

theorem loose_react (h : s.Loose op) (o : Option Request) :
    .entered .stepping ∉ (s.react o).events ∧
      ((s.react o).next.Loose op ∨ (s.react o).next.phase.held? = none) := by
  have hh : s.phase.held? = some op := by rw [h.phase]; rfl
  cases o with
  | none =>
    rw [react_none_of_held hh]
    exact ⟨by simp, .inl h⟩
  | some r =>
    have ha : (s.take r).next.run.armed = false := by
      rw [next_take]
      exact armed_obey h.run r
    have ht : .entered .stepping ∉ (s.take r).events := by
      intro he
      have hs := entered_take he
      simp [h.phase, Phase.isSuspended] at hs
    have hp : (s.take r).next.phase = .held op .pause := by rw [phase_take, h.phase]
    simp only [react, h.phase, Reaction.events_andThen, Reaction.next_andThen, List.mem_append,
      not_or]
    split
    · exact ⟨⟨ht, by simp⟩, .inl ⟨hp, ha⟩⟩
    · have hc := loose_consider ha op
      exact ⟨⟨ht, hc.1⟩, hc.2⟩

theorem not_entered_wait (h : s.Loose op ∨ s.phase.held? = none) (os : List (Option Request)) :
    .entered .stepping ∉ (s.wait os).events := by
  induction os generalizing s with
  | nil => simp [wait]
  | cons o os ih =>
    rcases h with h | h
    · have hr := loose_react h o
      rw [wait_cons (by rw [h.phase]; rfl), Reaction.events_andThen, List.mem_append, not_or]
      exact ⟨hr.1, ih hr.2⟩
    · simp [wait_of_free h]

theorem iterate_eq (hp : s.phase = .gather) (ha : s.run.active = true) (later : List (Option Request)) :
    s.iterate later = s.begin.andThen (·.wait later) := by
  simp [iterate, react, hp, ha]

theorem freed_of_iterate (hc : s.run.Coherent) (hp : s.phase = .gather) (ha : s.run.active = true)
    (hb : s.atBreakpoint = true ∨ s.run.sticky = true) {later : List (Option Request)}
    {before after : List Event} {regs : Registers}
    (he : (s.iterate later).events = before ++ .committed regs :: after) :
    ∃ r, r.frees = true ∧ .note (.taken r) ∈ before := by
  have hk := bars_check hc ha hb
  rw [iterate_eq hp ha, Reaction.events_andThen] at he
  cases hd : s.processor.decode.1 with
  | error f =>
    have hf : s.begin.next.phase.held? = none := by simp [begin_eq, hd, (phase_lock _ f).2]
    have hq : Quiet s.begin.events := by simp [begin_eq, hd]
    obtain ⟨rest, _, hw⟩ := hq.split he
    rw [wait_of_free hf] at hw
    simp at hw
  | ok op =>
    have hn := barred_consider hk op
    have hf : s.begin.next.Barred op := by simpa [begin_eq, hd] using hn.1
    have hq : Quiet s.begin.events := by simpa [begin_eq, hd] using hn.2
    obtain ⟨rest, hr, hw⟩ := hq.split he
    obtain ⟨r, hr', hm⟩ := freed_of_commit hf later hw
    exact ⟨r, hr', by simp [hr, hm]⟩

theorem held_of_inert (hc : s.run.Coherent) (hp : s.phase = .gather) (ha : s.run.active = true)
    (hb : s.atBreakpoint = true ∨ s.run.sticky = true) (hd : s.processor.decode.1 = .ok op)
    {later : List (Option Request)} (hl : ∀ r, some r ∈ later → r.isInert = true) :
    (s.iterate later).next.phase.held? = some op ∧ Quiet (s.iterate later).events := by
  have hn := barred_consider (bars_check hc ha hb) op
  have hf : s.begin.next.Barred op := by simpa [begin_eq, hd] using hn.1
  have hq : Quiet s.begin.events := by simpa [begin_eq, hd] using hn.2
  have hw := barred_wait hf hl
  rw [iterate_eq hp ha, Reaction.events_andThen, Reaction.next_andThen, quiet_append]
  exact ⟨hw.1.held, hq, hw.2⟩

theorem not_entered_iterate (hc : s.run.Coherent) (hp : s.phase = .gather) (ha : s.run.active = true)
    (hb : s.atBreakpoint = false) (hs : s.run.sticky = false) (later : List (Option Request)) :
    .entered .stepping ∉ (s.iterate later).events := by
  have hr : s.check.next.run = s.run := by simp [check, hb, Run.rearm, hs]
  have hx : s.check.next.run.armed = false := by
    rw [hr]
    cases hx : s.run.armed with
    | false => rfl
    | true => simp [hc.sticky hx] at hs
  rw [iterate_eq hp ha, Reaction.events_andThen, List.mem_append, not_or]
  cases hd : s.processor.decode.1 with
  | error f =>
    have hf : s.begin.next.phase.held? = none := by simp [begin_eq, hd, (phase_lock _ f).2]
    have hl : .entered .stepping ∉ (s.check.next.lock f).events := fun h => by cases entered_lock h
    refine ⟨?_, by simp [wait_of_free hf]⟩
    simpa [begin_eq, hd, not_entered_check] using hl
  | ok op =>
    have hn := loose_consider hx op
    have hk : s.begin.next.Loose op ∨ s.begin.next.phase.held? = none := by
      simpa [begin_eq, hd] using hn.2
    refine ⟨?_, not_entered_wait hk later⟩
    simpa [begin_eq, hd, not_entered_check] using hn.1

end Sequencer

namespace Course

variable {μ : Type} [Bus μ]

theorem follow_wait (c : Course μ) (offers : List (Option Request)) :
    ∃ n ≤ offers.length, (c.follow (offers.take n)).now = (c.now.wait offers).next ∧
      (c.follow (offers.take n)).told = c.told ++ (c.now.wait offers).events ∧
      (n = offers.length ∨ (c.now.wait offers).next.phase.held? = none) := by
  induction offers generalizing c with
  | nil => exact ⟨0, by simp [Sequencer.wait]⟩
  | cons o os ih =>
    cases hh : c.now.phase.held? with
    | none => exact ⟨0, by simp [Sequencer.wait_of_free hh, hh]⟩
    | some op =>
      obtain ⟨n, hl, hn, ht, he⟩ := ih (c.meet o)
      have hw := Sequencer.wait_cons hh o os
      refine ⟨n + 1, by simpa using hl, ?_, ?_, ?_⟩
      · simpa [hw] using hn
      · simpa [hw] using ht
      · simpa [hw] using he

/-- An iteration is a stretch of a course; it leaves offers only when no instruction is held back any more. -/
theorem follow_iterate (c : Course μ) (offers : List (Option Request)) :
    ∃ n ≤ offers.length, (c.follow (none :: offers.take n)).now = (c.now.iterate offers).next ∧
      (c.follow (none :: offers.take n)).told = c.told ++ (c.now.iterate offers).events ∧
      (n = offers.length ∨ (c.now.iterate offers).next.phase.held? = none) := by
  obtain ⟨n, hl, hn, ht, he⟩ := (c.meet none).follow_wait offers
  refine ⟨n, hl, hn, ?_, he⟩
  rw [follow_cons, ht, told_meet, List.append_assoc]
  rfl

/-- Whenever an instruction is begun: at a breakpoint, or with sticky stepping, it is committed only after a
single step was taken or sticky stepping was turned off, and it stays in hand whatever else is asked, as long
as the run is not ended; otherwise it never waits for a step. -/
theorem steps_gated (p : Processor μ) (offers later : List (Option Request))
    (hp : ((ofProcessor p).follow offers).now.phase = .gather)
    (ha : ((ofProcessor p).follow offers).now.run.active = true) :
    let s := ((ofProcessor p).follow offers).now
    (s.atBreakpoint = true ∨ s.run.sticky = true →
      (∀ before regs after, (s.iterate later).events = before ++ .committed regs :: after →
        .note (.taken (.adjust .singleStep)) ∈ before ∨
          .note (.taken (.adjust (.sticky false))) ∈ before) ∧
      ∀ op, s.processor.decode.1 = .ok op → (∀ r, some r ∈ later → r.isInert = true) →
        (s.iterate later).next.phase.held? = some op ∧ Quiet (s.iterate later).events) ∧
    (s.atBreakpoint = false → s.run.sticky = false →
      .entered .stepping ∉ (s.iterate later).events) := by
  intro s
  have hc : s.run.Coherent := coherent_follow p offers
  refine ⟨fun hb => ⟨?_, ?_⟩, fun hb hs => s.not_entered_iterate hc hp ha hb hs later⟩
  · intro before regs after he
    obtain ⟨r, hr, hm⟩ := s.freed_of_iterate hc hp ha hb he
    cases r with
    | adjust a =>
      cases a with
      | singleStep => exact .inl hm
      | sticky on =>
        cases on with
        | false => exact .inr hm
        | true => cases hr
      | _ => cases hr
    | _ => cases hr
  · intro op hd hl
    exact s.held_of_inert hc hp ha hb hd hl

/-- A breakpoint at the first instruction holds it, though the breakpoint is removed and the run resumed. -/
theorem steps_gated_at_entry :
    let s := ((ofProcessor { bus := Ram.empty }).follow
      [some (.addBreakpoint 0x0100), some (.start false)]).now
    let later := [some (.adjust .pause), none, some (.removeBreakpoint 0x0100), some (.adjust .resume)]
    s.phase = .gather ∧ s.run.active = true ∧ s.atBreakpoint = true ∧
      (s.iterate later).next.phase.held? = some ⟨0⟩ ∧ Quiet (s.iterate later).events := by
  intro s later
  have hd : s.processor.decode.1 = .ok ⟨0⟩ := by
    have hs : s.processor = { bus := Ram.empty } := rfl
    have hh : (⟨0⟩ : Opcode).isHole = false := by decide
    rw [hs]
    simp [Processor.decode, Processor.readByte, hh]
  have hl : ∀ r, some r ∈ later → r.isInert = true := by simp [later, Request.isInert]
  have hb : s.atBreakpoint = true := by decide
  have hp : s.phase = .gather := rfl
  have ha : s.run.active = true := rfl
  have hg := steps_gated { bus := Ram.empty } [some (.addBreakpoint 0x0100), some (.start false)] later
    hp ha
  have hx := (hg.1 (.inl hb)).2 ⟨0⟩ hd hl
  refine ⟨hp, ha, hb, ?_⟩
  simpa only [s] using hx

end Course

end Sm83
