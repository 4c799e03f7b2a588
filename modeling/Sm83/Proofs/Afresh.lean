import Sm83.Bus.Ram
import Sm83.Proofs.Publication

/-!
A reset forgets all but the memory: from then on the sequencer does and tells what a new one would, on a processor
with that memory. The status that others can read is the only thing kept from before, and nothing depends on it.
-/

set_option autoImplicit false

namespace Sm83

namespace Sequencer

variable {μ : Type} {f g : Sequencer μ → Reaction μ}

/-- What is done and told does not depend on the status that others can read. -/
def Blind (f : Sequencer μ → Reaction μ) : Prop :=
  ∀ s x, ∃ y, f { s with published := x } = ⟨{ (f s).next with published := y }, (f s).events⟩

/-- Nor does it depend on the phase, which is kept, except that an instruction may wait for a step in it. -/
def Aloof (f : Sequencer μ → Reaction μ) : Prop :=
  ∀ s x phase, phase.isSuspended = s.phase.isSuspended →
    ∃ y, f { s with published := x, phase } = ⟨{ (f s).next with published := y, phase }, (f s).events⟩

namespace Blind

theorem andThen (hf : Blind f) (hg : Blind g) : Blind fun s => (f s).andThen g := by
  intro s x
  obtain ⟨y, hy⟩ := hf s x
  obtain ⟨z, hz⟩ := hg (f s).next y
  exact ⟨z, by simp [Reaction.andThen, hy, hz]⟩

theorem ite {c : Sequencer μ → Prop} [DecidablePred c] (hc : ∀ s x, c { s with published := x } ↔ c s)
    (hf : Blind f) (hg : Blind g) : Blind fun s => if c s then f s else g s := by
  intro s x
  by_cases h : c s
  · simpa [hc, h] using hf s x
  · simpa [hc, h] using hg s x

end Blind

namespace Aloof

theorem phase_next (h : Aloof f) (s : Sequencer μ) : (f s).next.phase = s.phase := by
  obtain ⟨y, hy⟩ := h s s.published s.phase rfl
  exact congrArg (·.next.phase) hy

theorem blind (h : Aloof f) : Blind f := by
  intro s x
  obtain ⟨y, hy⟩ := h s x s.phase rfl
  refine ⟨y, hy.trans ?_⟩
  rw [← h.phase_next s]

theorem nothing : Aloof fun s : Sequencer μ => ⟨s, []⟩ := fun _ x _ _ => ⟨x, rfl⟩

theorem ite {c : Sequencer μ → Prop} [DecidablePred c]
    (hc : ∀ s x phase, c { s with published := x, phase } ↔ c s) (hf : Aloof f) (hg : Aloof g) :
    Aloof fun s => if c s then f s else g s := by
  intro s x phase hp
  by_cases h : c s
  · simpa [hc, h] using hf s x phase hp
  · simpa [hc, h] using hg s x phase hp

end Aloof

theorem aloof_saying (n : Note) : Aloof fun s : Sequencer μ => s.saying n := fun _ x _ _ => ⟨x, rfl⟩

theorem aloof_announce (m : Mode) : Aloof fun s : Sequencer μ => s.announce m := by
  intro s x phase _
  by_cases h : s.mode = m
  · exact ⟨x, by simp [announce, h]⟩
  · exact ⟨{ s with mode := m }.status, by simp [announce, h, publish, status]⟩

theorem aloof_announceRun : Aloof fun s : Sequencer μ => s.announceRun := by
  refine .ite (fun _ _ _ => .rfl) ?_ .nothing
  intro s x phase hp
  have hm : { s with published := x, phase }.activeMode = s.activeMode := by simp [activeMode, hp]
  simp only [hm]
  exact aloof_announce s.activeMode s x phase hp

theorem aloof_obey (r : Request) : Aloof fun s : Sequencer μ => s.obey r := by
  cases r with
  | start debug =>
    refine .ite (fun _ _ _ => .rfl) (aloof_saying _) (.ite (fun _ _ _ => .rfl) (aloof_saying _) ?_)
    exact fun s => aloof_announceRun { s with run := .begin debug }
  | stop =>
    exact .ite (fun _ _ _ => .rfl) (fun s => aloof_announce .stopped { s with run := {} }) .nothing
  | adjust a =>
    refine .ite (fun _ _ _ => .rfl) ?_ (aloof_saying _)
    exact fun s => aloof_announceRun { s with run := s.run.adjust a }
  | reset =>
    exact fun s => aloof_announce .idle
      { s with processor := s.processor.reset, run := {}, breakpoints := {}, fault := none, committed := 0 }
  | addBreakpoint a =>
    refine .ite (fun _ _ _ => .rfl) .nothing ?_
    exact fun s => aloof_saying _ { s with breakpoints := s.breakpoints.insert a }
  | removeBreakpoint a =>
    refine .ite (fun _ _ _ => .rfl) ?_ .nothing
    exact fun s => aloof_saying _ { s with breakpoints := s.breakpoints.erase a }
  | queryBreakpoint a => exact fun _ x _ _ => ⟨x, rfl⟩
  | shutdown => exact fun _ x _ _ => ⟨x, rfl⟩

theorem aloof_take (r : Request) : Aloof fun s : Sequencer μ => s.take r := by
  intro s x phase hp
  obtain ⟨y, hy⟩ := aloof_obey r s x phase hp
  refine ⟨y, ?_⟩
  simp [take, saying, Reaction.andThen, hy]

theorem blind_settle : Blind fun s : Sequencer μ => s.settle := by
  refine .ite (fun _ _ => .rfl) ?_ (.ite (fun _ _ => .rfl) ?_ ?_)
  · exact fun s => (aloof_saying .closed).blind { s with phase := .gone }
  · exact fun _ x => ⟨x, rfl⟩
  · exact fun _ x => ⟨x, rfl⟩

theorem blind_finish (r : Completion) : Blind fun s : Sequencer μ => s.finish r := by
  have hp : Blind fun s : Sequencer μ => ⟨s.publish, []⟩ := fun s x => ⟨s.status, rfl⟩
  have hs : Blind fun s : Sequencer μ => { s with run := {} }.announce .stopped :=
    fun s => (aloof_announce .stopped).blind { s with run := {} }
  intro s x
  cases ho : r.outcome with
  | stop =>
    simp only [finish, ho]
    exact ((aloof_saying _).blind.andThen hs).andThen hp s x
  | proceed =>
    simp only [finish, ho]
    exact Aloof.nothing.blind.andThen hp s x
  | unimplemented =>
    simp only [finish, ho]
    exact Aloof.nothing.blind.andThen hp s x

theorem blind_lock (f : Fault) : Blind fun s : Sequencer μ => s.lock f := by
  refine .andThen (.andThen ?_ ?_) blind_settle
  · exact fun _ x => ⟨x, rfl⟩
  · exact fun s => (aloof_announce .halted).blind { s with run := {}, fault := some f }

variable [Bus μ]

theorem blind_commit (op : Opcode) : Blind fun s : Sequencer μ => s.commit op := by
  intro s x
  have hr : Blind fun s : Sequencer μ => s.retire op := fun _ x => ⟨x, rfl⟩
  exact (hr.andThen (blind_finish (s.processor.execute op).1)).andThen blind_settle s x

theorem blind_consider (op : Opcode) : Blind fun s : Sequencer μ => s.consider op := by
  refine .ite (fun _ _ => .rfl) blind_settle (.ite (fun _ _ => .rfl) ?_ (.ite (fun _ _ => .rfl) ?_ (blind_commit op)))
  · exact fun _ x => ⟨x, rfl⟩
  · exact fun s => aloof_announceRun.blind { s with phase := .held op .step }

theorem blind_begin : Blind fun s : Sequencer μ => s.begin := by
  intro s x
  have hc : Blind fun s : Sequencer μ => s.check := fun _ x => ⟨x, rfl⟩
  simp only [begin_eq]
  cases s.processor.decode.1 with
  | error f => exact hc.andThen (blind_lock f) s x
  | ok op => exact (hc.andThen (aloof_saying _).blind).andThen (blind_consider op) s x

theorem blind_react (o : Option Request) : Blind fun s : Sequencer μ => s.react o := by
  suffices h : ∀ phase, Blind fun s : Sequencer μ => { s with phase }.react o from fun s x => h s.phase s x
  intro phase s x
  cases phase with
  | rest =>
    cases o with
    | none => exact ⟨x, rfl⟩
    | some r => exact (aloof_take r).blind.andThen blind_settle { s with phase := .rest } x
  | gather =>
    cases o with
    | none =>
      have hb : Blind fun s : Sequencer μ => if s.run.active then s.begin else s.settle :=
        .ite (fun _ _ => .rfl) blind_begin blind_settle
      exact hb { s with phase := .gather } x
    | some r => exact (aloof_take r).blind { s with phase := .gather } x
  | held op hold =>
    cases o with
    | none => exact ⟨x, by cases hold <;> rfl⟩
    | some r =>
      cases hold with
      | pause =>
        have hc : Blind fun s : Sequencer μ => if s.run.active && s.run.paused then ⟨s, []⟩ else s.consider op :=
          .ite (fun _ _ => .rfl) Aloof.nothing.blind (blind_consider op)
        exact (aloof_take r).blind.andThen hc { s with phase := .held op .pause } x
      | step =>
        have hr : Blind fun s : Sequencer μ => { s with phase := .gather }.announceRun :=
          fun s => aloof_announceRun.blind { s with phase := .gather }
        have hc : Blind fun s : Sequencer μ => if s.run.active && s.run.armed then ⟨s, []⟩
            else { s with phase := .gather }.announceRun.andThen (·.consider op) :=
          .ite (fun _ _ => .rfl) Aloof.nothing.blind (hr.andThen (blind_consider op))
        exact (aloof_take r).blind.andThen hc { s with phase := .held op .step } x
  | gone => cases o <;> exact ⟨x, rfl⟩

theorem react_none_of_inactive {s : Sequencer μ} (hp : s.phase = .gather) (ha : s.run.active = false)
    (hl : s.leaving = false) : s.react none = ⟨{ s with phase := .rest }, []⟩ := by
  simp [react, hp, settle, ha, hl]

end Sequencer

/-- As good as new: but for the status that others can read, and still gathering requests, perhaps, where a new
sequencer would rest. -/
structure Sequencer.Afresh {μ : Type} (s new : Sequencer μ) : Prop where
  same : s = { new with published := s.published, phase := s.phase }
  phase : s.phase = new.phase ∨ s.phase = .gather ∧ new.phase = .rest ∧ new.run.active = false

namespace Sequencer.Afresh

variable {μ : Type} {s new : Sequencer μ}

theorem run_eq (h : s.Afresh new) : s.run = new.run := by rw [h.same]

theorem leaving_eq (h : s.Afresh new) : s.leaving = new.leaving := by rw [h.same]

variable [Bus μ]

/-- Where the one still gathers and the other rests, no run is told of, and without a request both rest. -/
theorem react_gather (h : s = { new with published := s.published, phase := .gather }) (hr : new.phase = .rest)
    (ha : new.run.active = false) (hl : new.leaving = false) {o : Option Request} (ho : o ≠ some .shutdown) :
    (s.react o).events = (new.react o).events ∧ (s.react o).next.Afresh (new.react o).next := by
  cases o with
  | none =>
    have hn : new.react none = ⟨new, []⟩ := by simp [Sequencer.react, hr]
    have hs := react_none_of_inactive (s := { new with published := s.published, phase := .gather }) rfl ha hl
    rw [h, hs, hn]
    exact ⟨rfl, rfl, .inl hr.symm⟩
  | some r =>
    -- the new one settles after the request, and the other takes it and goes on gathering
    have hx : r ≠ .shutdown := fun hx => ho (by rw [hx])
    have hl : (new.take r).next.leaving = false := by simp [next_take, leaving_obey, hl, hx]
    have hs : s.react (some r) = s.take r := by
      rw [h]
      rfl
    have hn : new.react (some r) = (new.take r).andThen settle := by simp [Sequencer.react, hr]
    have ht : ∃ y, { new with published := s.published, phase := .gather }.take r =
        ⟨{ (new.take r).next with published := y, phase := .gather }, (new.take r).events⟩ :=
      aloof_take r new s.published .gather (by simp [hr, Phase.isSuspended])
    obtain ⟨y, hy⟩ := ht
    rw [hs, hn, h, hy]
    refine ⟨by simp [events_settle, hl], ?_⟩
    rw [Reaction.next_andThen, next_settle]
    refine ⟨rfl, ?_⟩
    cases hx : (new.take r).next.run.active with
    | true => exact .inl (by simp [between, hl, hx])
    | false => exact .inr ⟨rfl, by simp [between, hl, hx], rfl⟩

theorem react (h : s.Afresh new) (hl : new.leaving = false) {o : Option Request} (ho : o ≠ some .shutdown) :
    (s.react o).events = (new.react o).events ∧ (s.react o).next.Afresh (new.react o).next := by
  rcases h.phase with hp | ⟨hg, hr, ha⟩
  · have hs : s = { new with published := s.published } := by rw [h.same, hp]
    have hr : ∃ y, { new with published := s.published }.react o =
        ⟨{ (new.react o).next with published := y }, (new.react o).events⟩ := blind_react o new s.published
    obtain ⟨y, hy⟩ := hr
    rw [hs, hy]
    exact ⟨rfl, rfl, .inl rfl⟩
  · have hs : s = { new with published := s.published, phase := .gather } := by rw [h.same, hg]
    exact react_gather hs hr ha hl ho

theorem of_reset (hl : s.leaving = false) (hg : s.phase ≠ .gone) :
    (s.react (some .reset)).next.Afresh
      (.ofProcessor { bus := s.processor.bus, regs := .afterReset, interrupts := {} }) := by
  have hn : (s.take .reset).next = { (Sequencer.ofProcessor s.processor.reset) with
      published := (s.take .reset).next.published, phase := s.phase } := by
    simp [next_take, obey, next_announce, Sequencer.ofProcessor, hl]
  by_cases hp : s.phase = .gather
  · -- more requests may have come with the reset, and they are taken before it rests
    have hr : s.react (some .reset) = s.take .reset := by simp [Sequencer.react, hp]
    rw [hr, hn, hp]
    exact ⟨rfl, .inr ⟨rfl, rfl, rfl⟩⟩
  · have ha : (s.take .reset).next.run.active = false := by
      rw [hn]
      rfl
    rw [next_react_of_inactive ha hp hg, next_settle, hn]
    exact ⟨rfl, .inl rfl⟩

end Sequencer.Afresh

namespace Course

variable {μ : Type} [Bus μ]

theorem afresh_follow {c new : Course μ} {told : List Event} (h : c.now.Afresh new.now)
    (ht : c.told = told ++ new.told) (hl : new.now.leaving = false) {later : List (Option Request)}
    (hs : some .shutdown ∉ later) :
    (c.follow later).told = told ++ (new.follow later).told ∧ (c.follow later).now.Afresh (new.follow later).now := by
  induction later generalizing c new with
  | nil => exact ⟨ht, h⟩
  | cons o os ih =>
    obtain ⟨ho, hos⟩ : some .shutdown ≠ o ∧ some .shutdown ∉ os := by simpa using hs
    obtain ⟨he, hn⟩ := h.react hl (Ne.symm ho)
    refine ih hn ?_ ?_ hos
    · rw [told_meet, told_meet, ht, he, List.append_assoc]
    · rw [new.leaving_meet o (Ne.symm ho), hl]

/-- From a reset on, a sequencer tells what a new one tells of the same requests, on a processor with the memory
that it had and all else as a reset leaves it. What it has come to is the same, too, except for the status that
others can read: it may only have to look once more for a request before it rests. -/
theorem reset_forgets (p : Processor μ) (offers later : List (Option Request)) (ho : some .shutdown ∉ offers)
    (hl : some .shutdown ∉ later) :
    let c := (ofProcessor p).follow offers
    let new := (ofProcessor { bus := c.now.processor.bus, regs := .afterReset, interrupts := {} }).follow later
    let d := (c.meet (some .reset)).follow later
    d.told = (c.meet (some .reset)).told ++ new.told ∧
      d.now = { new.now with published := d.now.published, phase := d.now.phase } ∧
      (d.now.phase = new.now.phase ∨ d.now.phase = .gather ∧ new.now.phase = .rest ∧
        d.now.react none = ⟨{ d.now with phase := .rest }, []⟩) := by
  intro c new d
  have hs : c.now.leaving = false := staying_follow rfl ho
  have hg : c.now.phase ≠ .gone := by
    intro hg
    have hx : c.now.leaving = true := (tidy_follow p offers).1.gone hg
    simp [hs] at hx
  obtain ⟨ht, hd⟩ : d.told = (c.meet (some .reset)).told ++ new.told ∧ d.now.Afresh new.now :=
    afresh_follow (.of_reset hs hg) (List.append_nil _).symm rfl hl
  refine ⟨ht, hd.same, ?_⟩
  rcases hd.phase with hp | ⟨hp, hr, hx⟩
  · exact .inl hp
  · have hn : new.now.leaving = false := staying_follow rfl hl
    refine .inr ⟨hp, hr, ?_⟩
    rw [← hd.run_eq] at hx
    rw [← hd.leaving_eq] at hn
    exact Sequencer.react_none_of_inactive hp hx hn

/-- Reset while it waits for a step, the sequencer answers and goes on as if there had been no breakpoint. -/
theorem reset_forgets_at_breakpoint :
    let offers : List (Option Request) := [some (.addBreakpoint 0x0100), some (.start false), none]
    let later : List (Option Request) := [some (.queryBreakpoint 0x0100), some (.start false), none]
    let c := (ofProcessor { bus := Ram.empty }).follow offers
    let new := (ofProcessor { bus := c.now.processor.bus, regs := .afterReset, interrupts := {} }).follow later
    some .shutdown ∉ offers ∧ some .shutdown ∉ later ∧ c.now.phase = .held ⟨0x00⟩ .step ∧
      .answer 0x0100 false ∈ new.told ∧
      ((c.meet (some .reset)).follow later).told = (c.meet (some .reset)).told ++ new.told := by
  intro offers later c new
  have ho : some .shutdown ∉ offers := by decide
  have hl : some .shutdown ∉ later := by decide
  exact ⟨ho, hl, rfl, .tail _ (.head _), (reset_forgets _ offers later ho hl).1⟩

end Course

end Sm83
