import Mathlib.Order.Bounds.Basic
import Sm83.Proofs.Consistency
import Sm83.Proofs.Refinement
import Sm83.Proofs.Turns

/-!
A run that is left alone commits one step of its processor after the other. It comes to an end where it meets its
bound: an instruction that cannot be decoded, a breakpoint, or a stop, whichever is first.
-/

set_option autoImplicit false

namespace Sm83

namespace Processor

theorem outcome_execute {μ : Type} [Bus μ] (p : Processor μ) (op : Opcode) :
    (p.execute op).1.outcome = .stop ↔ op.form = .byte .stop := by
  have h : (p.execute op).1.outcome = (op.form.fetch p.bus (p.regs.pc + 1)).1.outcome := rfl
  rw [h]
  cases op.form with
  | hole => simp [Form.fetch, Instruction.outcome]
  | inherent i => cases i <;> simp [Form.fetch, Instruction.outcome]
  | byte i => cases i <;> simp [Form.fetch, Instruction.outcome]
  | word i => cases i <;> simp [Form.fetch, Instruction.outcome]

end Processor

/-- A run does not go past `p` by itself. -/
def Breakpoints.Bounds (b : Breakpoints) (p : Processor Ram) : Prop :=
  p.next.isHole = true ∨ b.contains p.regs.pc = true ∨ p.next.form = .byte .stop

theorem Breakpoints.not_bounds {b : Breakpoints} {p : Processor Ram} :
    ¬ b.Bounds p ↔
      p.next.isHole = false ∧ b.contains p.regs.pc = false ∧ p.next.form ≠ .byte .stop := by
  simp [Bounds]

namespace Sequencer

/-- A run goes on with these flags, and the next instruction is not waiting for anything. -/
structure UnderWay {μ : Type} (s : Sequencer μ) (debug sticky : Bool) : Prop where
  phase : s.phase = .gather
  run : s.run = { active := true, debug, sticky }
  mode : s.mode = .running
  sound : s.fault = none
  staying : s.leaving = false

/-- From `s` on a run gets under way, which is then at `u`. -/
structure SetsOut {μ : Type} (s u : Sequencer μ) (debug sticky : Bool) : Prop where
  underWay : u.UnderWay debug sticky
  processor : u.processor = s.processor
  breakpoints : u.breakpoints = s.breakpoints
  committed : u.committed = s.committed

structure Spent {μ : Type} (s : Sequencer μ) : Prop where
  phase : s.phase = .rest
  inactive : s.run.active = false
  staying : s.leaving = false

/-- Nothing happens without a request, and everybody can see why. -/
structure Rests {μ : Type} (s : Sequencer μ) (p : Processor μ) (m : Mode) (f : Option Fault) (n : Nat) :
    Prop where
  waits : (⟨s, []⟩ : Loop μ).isBlocked = true
  present : s.phase ≠ .gone
  processor : s.processor = p
  status : s.status = { mode := m, regs := p.regs, fault := f, committed := n }
  published : s.published = s.status

section

variable {μ : Type} {s : Sequencer μ} {op : Opcode}

theorem lock_ends {f : Fault} (hl : s.leaving = false) (hm : s.mode ≠ .halted) :
    (s.lock f).next.Spent ∧ (s.lock f).next.Rests s.processor .halted (some f) s.committed := by
  have hp : (s.lock f).next.phase = .rest := by simp [lock, next_settle, next_announce, between, hl]
  have hs : (s.lock f).next.status =
      { mode := .halted, regs := s.processor.regs, fault := some f, committed := s.committed } := by
    simp [status, lock, next_settle, next_announce]
  refine ⟨⟨hp, by simp [lock, next_settle, next_announce], by simp [lock, next_settle, next_announce, hl]⟩, ?_⟩
  exact ⟨by simp [Loop.isBlocked, hp], by simp [hp], s.processor_lock f, hs, by rw [published_lock hm, hs]⟩

variable {debug sticky : Bool}

theorem UnderWay.announceRun (h : s.UnderWay debug sticky) : s.announceRun = ⟨s, []⟩ := by
  simp [Sequencer.announceRun, activeMode, announce, h.run, h.mode]

variable [Bus μ]

namespace UnderWay

theorem next_retire (h : s.UnderWay debug sticky) (op : Opcode) : (s.retire op).next =
    { s with processor := (s.processor.execute op).2, committed := s.committed + 1 } := by
  have hr : (if s.run.debug then { s.run with armed := false } else s.run) = s.run := by
    rw [h.run]
    exact ite_self _
  simp only [retire, hr]

theorem commit (h : s.UnderWay debug sticky) (ho : op.form ≠ .byte .stop) :
    (s.commit op).next.UnderWay debug sticky ∧ (s.commit op).next.breakpoints = s.breakpoints := by
  have hx : (s.processor.execute op).1.outcome ≠ .stop := by rwa [ne_eq, Processor.outcome_execute]
  rw [commit_eq, Reaction.next_andThen, Reaction.next_andThen, next_finish, if_neg hx, next_settle,
    h.next_retire]
  exact ⟨⟨by simp [between, publish, h.staying, h.run], h.run, h.mode, h.sound, h.staying⟩, rfl⟩

theorem commit_stop (h : s.UnderWay debug sticky) (ho : op.form = .byte .stop) :
    (s.commit op).next.Spent ∧
      (s.commit op).next.Rests (s.processor.execute op).2 .stopped none (s.committed + 1) := by
  have hx : (s.processor.execute op).1.outcome = .stop := (s.processor.outcome_execute op).2 ho
  rw [commit_eq, Reaction.next_andThen, Reaction.next_andThen, next_finish, if_pos hx, next_settle,
    h.next_retire, next_announce]
  exact ⟨⟨by simp [between, publish, h.staying], rfl, h.staying⟩,
    by simp [Loop.isBlocked, between, publish, h.staying], by simp [between, publish, h.staying], rfl,
    by simp [publish, status, h.sound], rfl⟩

theorem consider (h : s.UnderWay debug sticky) (op : Opcode) : s.consider op = s.commit op := by
  simp [Sequencer.consider, h.run]

theorem react (h : s.UnderWay debug sticky) : s.react none = s.begin := by
  simp [Sequencer.react, h.phase, h.run]

theorem react_hole (h : s.UnderWay debug sticky) (hh : s.processor.next.isHole = true) :
    Quiet (s.react none).events ∧ (s.react none).next.Spent ∧
      (s.react none).next.Rests s.processor.decode.2 .halted
        (some ⟨s.processor.next, s.processor.regs.pc⟩) s.committed := by
  have hr : s.react none = s.check.andThen (·.lock ⟨s.processor.next, s.processor.regs.pc⟩) := by
    rw [h.react, begin_eq, Processor.decode_fst, hh]
    rfl
  have hm : s.check.next.mode ≠ .halted := by simp [check, h.mode]
  rw [hr]
  exact ⟨by simp, lock_ends h.staying hm⟩

end UnderWay

theorem react_start (hf : s.phase.Fits s.run) (ha : s.run.active = false) (hm : s.mode ≠ .halted)
    (hx : s.fault = none) (hl : s.leaving = false) (hg : s.phase ≠ .gone) (debug : Bool) :
    let r := s.react (some (.start debug))
    Quiet r.events ∧ s.SetsOut r.next debug false := by
  have ht : (s.take (.start debug)).next = ({ s with run := .begin debug }.announce .running).next := by
    simp [next_take, obey, ha, hm, Sequencer.announceRun, Run.begin, activeMode]
  cases hp : s.phase with
  | rest =>
    simp only [react, hp]
    refine ⟨by simp, ?_⟩
    rw [Reaction.next_andThen, ht, next_settle, next_announce]
    exact ⟨⟨by simp [between, Run.begin, hl], rfl, rfl, hx, hl⟩, rfl, rfl, rfl⟩
  | gather =>
    simp only [react, hp]
    refine ⟨by simp, ?_⟩
    rw [ht, next_announce]
    exact ⟨⟨hp, rfl, rfl, hx, hl⟩, rfl, rfl, rfl⟩
  | held op hold => simpa [hp, Phase.held?] using hf.held?_eq_none ha
  | gone => exact absurd hp hg

theorem react_release (hp : s.phase = .held op .step) (hx : s.fault = none) (hl : s.leaving = false)
    {a : Adjustment} (hr : s.run.adjust a = { active := true, debug, sticky }) :
    ∃ u es, Quiet es ∧ s.SetsOut u debug sticky ∧
      s.react (some (.adjust a)) = ⟨(u.commit op).next, es ++ (u.commit op).events⟩ := by
  generalize ht : s.take (.adjust a) = t
  have ha : s.run.active = true := by rw [← s.run.active_adjust a, hr]
  have hn : t.next = ({ s with run := s.run.adjust a }.announce .running).next := by
    simp [← ht, next_take, obey, ha, hr, announceRun, activeMode]
  have hq : Quiet t.events := by simp [← ht]
  have hu : s.SetsOut { t.next with phase := .gather } debug sticky := by
    rw [hn, next_announce]
    exact ⟨⟨rfl, hr, rfl, hx, hl⟩, rfl, rfl, rfl⟩
  have hk : (t.next.run.active && t.next.run.armed) = false := by
    have hw : t.next.run = _ := hu.underWay.run
    rw [hw, Bool.and_false]
  refine ⟨_, t.events, hq, hu, ?_⟩
  simp [react, hp, ht, Reaction.andThen, hk, hu.underWay.announceRun, hu.underWay.consider]

end

namespace UnderWay

variable {s : Sequencer Ram} {debug : Bool}

theorem check (h : s.UnderWay debug false) (hb : s.breakpoints.contains s.processor.regs.pc = false) :
    s.check = ⟨s, []⟩ := by
  have hn : s.atBreakpoint = false := hb
  have hs : s.run.sticky = false := by rw [h.run]
  simp [Sequencer.check, hn, Run.rearm, hs, s.processor.decode_next]

theorem react_commit (h : s.UnderWay debug false) (hh : s.processor.next.isHole = false)
    (hb : s.breakpoints.contains s.processor.regs.pc = false) :
    s.react none = ⟨(s.commit s.processor.next).next,
      .note (.decoded s.processor.next) :: (s.commit s.processor.next).events⟩ := by
  rw [h.react, begin_eq, Processor.decode_fst, hh, h.check hb]
  simp [Reaction.andThen, saying, h.consider]

theorem react_breakpoint (h : s.UnderWay debug false) (hh : s.processor.next.isHole = false)
    (hb : s.breakpoints.contains s.processor.regs.pc = true) :
    Quiet (s.react none).events ∧ (s.react none).next.Rests s.processor .stepping none s.committed := by
  have hn : s.check.next = { s with run := s.run.meetBreakpoint } := by
    have ha : s.atBreakpoint = true := hb
    simp [Sequencer.check, ha, Run.rearm, Run.meetBreakpoint, s.processor.decode_next]
  have hr : s.react none = (s.check.andThen (·.saying (.decoded s.processor.next))).andThen
      fun s => { s with phase := .held s.processor.next .step }.announce .stepping := by
    rw [h.react, begin_eq, Processor.decode_fst, hh]
    simp [Reaction.andThen, saying, hn, Sequencer.consider, Sequencer.announceRun, activeMode,
      Run.meetBreakpoint, Phase.isSuspended, h.run]
  rw [hr]
  refine ⟨by simp, ?_⟩
  simp only [Reaction.next_andThen, next_saying, hn, next_announce, h.mode]
  exact ⟨rfl, by simp, rfl, by simp [status, h.sound], rfl⟩

end UnderWay

end Sequencer

namespace Loop

variable {l : Loop Ram} {n k : Nat}

/-- In `n` turns the loop has committed the first `k` steps of its processor. -/
structure Counts (l : Loop Ram) (n k : Nat) : Prop where
  processor : (l.turns n).1.sequencer.processor = l.sequencer.processor.steps k
  committed : (l.turns n).1.sequencer.committed = l.sequencer.committed + k
  told : Event.commits (l.turns n).2 = (List.range k).map fun i => (l.sequencer.processor.steps (i + 1)).regs

/-- After `k` steps the loop comes to rest for good. -/
def Ends (l : Loop Ram) (k : Nat) (m : Mode) (f : Option Fault) : Prop :=
  ∃ n, l.Counts n k ∧
    (l.turns n).1.sequencer.Rests (l.sequencer.processor.steps k) m f (l.sequencer.committed + k) ∧
    ∀ i, l.turns (n + i) = l.turns n

/-- From step number `first` on, the loop goes to the next bound and not past it. -/
def RunsToBound (l : Loop Ram) (first : Nat) : Prop :=
  let m := l.sequencer.processor.steps
  let b := l.sequencer.breakpoints
  (∀ k, IsLeast {k | first ≤ k ∧ b.Bounds (m k)} k →
    if (m k).next.isHole then l.Ends k .halted (some ⟨(m k).next, (m k).regs.pc⟩)
    else if b.contains (m k).regs.pc then l.Ends k .stepping none
    else l.Ends (k + 1) .stopped none) ∧
  ((∀ k, first ≤ k → ¬ b.Bounds (m k)) → ∀ k, ∃ n, l.Counts n k)

/-- After `n` turns and `k` steps the run is under way, and nothing was asked of it. -/
structure Reaches (l : Loop Ram) (n k : Nat) : Prop extends l.Counts n k where
  inbox : (l.turns n).1.inbox = []
  underWay : ∃ debug, (l.turns n).1.sequencer.UnderWay debug false
  breakpoints : (l.turns n).1.sequencer.breakpoints = l.sequencer.breakpoints

theorem Ends.of_rests {m : Mode} {f : Option Fault} (hc : l.Counts n k) (hi : (l.turns n).1.inbox = [])
    (hr : (l.turns n).1.sequencer.Rests (l.sequencer.processor.steps k) m f (l.sequencer.committed + k)) :
    l.Ends k m f := by
  have he : (l.turns n).1 = ⟨(l.turns n).1.sequencer, []⟩ := by rw [← hi]
  have hb : (l.turns n).1.isBlocked = true := by
    rw [he]
    exact hr.waits
  exact ⟨n, hc, hr, turns_of_blocked hi hb⟩

/-- A turn commits the instruction that step number `k` carries out. -/
structure Commits (l : Loop Ram) (n k : Nat) (u : Sequencer Ram) (es : List Event) : Prop where
  underWay : ∃ debug, u.UnderWay debug false
  breakpoints : u.breakpoints = l.sequencer.breakpoints
  processor : u.processor = l.sequencer.processor.steps k
  committed : u.committed = l.sequencer.committed + k
  told : Event.commits es = (List.range k).map fun i => (l.sequencer.processor.steps (i + 1)).regs
  decoded : u.processor.next.isHole = false
  turn : l.turns n = (⟨(u.commit u.processor.next).next, []⟩, es ++ (u.commit u.processor.next).events)

namespace Commits

variable {u : Sequencer Ram} {es : List Event}

theorem stepped (h : l.Commits n k u es) :
    (u.processor.execute u.processor.next).2 = l.sequencer.processor.steps (k + 1) := by
  rw [← Processor.step_of_fit h.decoded, h.processor]
  rfl

theorem counts (h : l.Commits n k u es) : l.Counts n (k + 1) := by
  refine ⟨?_, ?_, ?_⟩
  · rw [h.turn, Sequencer.processor_commit, h.stepped]
  · rw [h.turn, Sequencer.committed_commit, h.committed]
    rfl
  · rw [h.turn, Event.commits_append, h.told, Sequencer.commits_commit, h.stepped, List.range_succ,
      List.map_append]
    rfl

theorem reaches (h : l.Commits n k u es) (ho : u.processor.next.form ≠ .byte .stop) :
    l.Reaches n (k + 1) := by
  obtain ⟨debug, hu⟩ := h.underWay
  obtain ⟨hu, hb⟩ := hu.commit ho
  refine ⟨h.counts, ?_, ?_, ?_⟩
  · rw [h.turn]
  · rw [h.turn]
    exact ⟨debug, hu⟩
  · rw [h.turn, hb, h.breakpoints]

theorem ends (h : l.Commits n k u es) (ho : u.processor.next.form = .byte .stop) :
    l.Ends (k + 1) .stopped none := by
  obtain ⟨debug, hu⟩ := h.underWay
  have hr := (hu.commit_stop ho).2
  rw [h.stepped, h.committed] at hr
  refine .of_rests h.counts ?_ ?_
  · rw [h.turn]
  · rw [h.turn]
    exact hr

end Commits

namespace Reaches

theorem turns_succ (h : l.Reaches n k) :
    let r := (l.turns n).1.sequencer.react none
    l.turns (n + 1) = (⟨r.next, []⟩, (l.turns n).2 ++ r.events) := by
  obtain ⟨debug, hu⟩ := h.underWay
  have hg : (l.turns n).1.sequencer.phase ≠ .gone := by simp [hu.phase]
  rw [Loop.turns_succ, turn_eq hg, h.inbox]
  rfl

theorem commits (h : l.Reaches n k) (hh : (l.sequencer.processor.steps k).next.isHole = false)
    (hb : l.sequencer.breakpoints.contains (l.sequencer.processor.steps k).regs.pc = false) :
    ∃ u es, l.Commits (n + 1) k u es := by
  rw [← h.processor] at hh hb
  rw [← h.breakpoints] at hb
  obtain ⟨debug, hu⟩ := h.underWay
  refine ⟨(l.turns n).1.sequencer,
    (l.turns n).2 ++ [.note (.decoded (l.turns n).1.sequencer.processor.next)], h.underWay, h.breakpoints,
    h.processor, h.committed, ?_, hh, ?_⟩
  · rw [Event.commits_append, h.told]
    simp [Event.commits, Event.commit?]
  · rw [h.turns_succ, hu.react_commit hh hb]
    simp

theorem next (h : l.Reaches n k) (hk : ¬ l.sequencer.breakpoints.Bounds (l.sequencer.processor.steps k)) :
    l.Reaches (n + 1) (k + 1) := by
  obtain ⟨hh, hb, ho⟩ := Breakpoints.not_bounds.1 hk
  obtain ⟨u, es, hc⟩ := h.commits hh hb
  refine hc.reaches ?_
  rwa [hc.processor]

theorem upTo {first : Nat} (h : l.Reaches n first) (hk : first ≤ k)
    (free : ∀ i, first ≤ i → i < k → ¬ l.sequencer.breakpoints.Bounds (l.sequencer.processor.steps i)) :
    ∃ n, l.Reaches n k := by
  induction k, hk using Nat.le_induction with
  | base => exact ⟨n, h⟩
  | succ k hk ih =>
    obtain ⟨n, hn⟩ := ih fun i hi hlt => free i hi (by omega)
    exact ⟨n + 1, hn.next (free k hk (by omega))⟩

theorem ends_of_quiet {m : Mode} {f : Option Fault} (h : l.Reaches n k)
    (hq : Quiet ((l.turns n).1.sequencer.react none).events)
    (hr : ((l.turns n).1.sequencer.react none).next.Rests (l.turns n).1.sequencer.processor m f
      (l.turns n).1.sequencer.committed) : l.Ends k m f := by
  rw [h.processor, h.committed] at hr
  have hc : l.Counts (n + 1) k := by
    refine ⟨?_, ?_, ?_⟩
    · rw [h.turns_succ]
      exact hr.processor
    · rw [h.turns_succ]
      exact congrArg Status.committed hr.status
    · rw [h.turns_succ, Event.commits_append, h.told, Event.commits_of_quiet hq, List.append_nil]
  refine .of_rests hc ?_ ?_
  · rw [h.turns_succ]
  · rw [h.turns_succ]
    exact hr

theorem ends (h : l.Reaches n k) (hk : l.sequencer.breakpoints.Bounds (l.sequencer.processor.steps k)) :
    let p := l.sequencer.processor.steps k
    if p.next.isHole then l.Ends k .halted (some ⟨p.next, p.regs.pc⟩)
    else if l.sequencer.breakpoints.contains p.regs.pc then l.Ends k .stepping none
    else l.Ends (k + 1) .stopped none := by
  intro p
  have hp : (l.turns n).1.sequencer.processor = p := h.processor
  obtain ⟨debug, hu⟩ := h.underWay
  split
  next hh =>
    rw [← hp] at hh ⊢
    obtain ⟨hq, -, hr⟩ := hu.react_hole hh
    exact h.ends_of_quiet hq hr
  next hh =>
    have hh : p.next.isHole = false := by simpa using hh
    split
    next hb =>
      rw [← hp] at hh hb
      rw [← h.breakpoints] at hb
      obtain ⟨hq, hr⟩ := hu.react_breakpoint hh hb
      exact h.ends_of_quiet hq hr
    next hb =>
      have ho : p.next.form = .byte .stop := (hk.resolve_left (by simp [p, hh])).resolve_left hb
      obtain ⟨u, es, hc⟩ := h.commits hh (by simpa using hb)
      refine hc.ends ?_
      rwa [hc.processor]

end Reaches

theorem Reaches.runsToBound {first : Nat} (h : l.Reaches n first) (begun : ∀ k < first, ∃ n, l.Counts n k) :
    l.RunsToBound first := by
  refine ⟨?_, ?_⟩
  · intro k ⟨⟨hf, hk⟩, least⟩
    obtain ⟨n, hn⟩ := h.upTo hf fun i hi hlt hb => absurd (least ⟨hi, hb⟩) (by omega)
    exact hn.ends hk
  · intro free k
    by_cases hk : first ≤ k
    · obtain ⟨n, hn⟩ := h.upTo hk fun i hi _ => free i hi
      exact ⟨n, hn.toCounts⟩
    · exact begun k (by omega)

theorem turns_single {s : Sequencer Ram} {r : Request} (hg : s.phase ≠ .gone) :
    (⟨s, [r]⟩ : Loop Ram).turns 1 = (⟨(s.react (some r)).next, []⟩, (s.react (some r)).events) := by
  rw [turns_one]
  exact turn_eq hg

theorem reaches_start {s : Sequencer Ram} {r : Request} {debug : Bool} (hg : s.phase ≠ .gone)
    (h : Quiet (s.react (some r)).events ∧ s.SetsOut (s.react (some r)).next debug false) :
    (⟨s, [r]⟩ : Loop Ram).Reaches 1 0 := by
  have ht := turns_single (r := r) hg
  obtain ⟨hq, hu⟩ := h
  refine ⟨⟨?_, ?_, ?_⟩, ?_, ?_, ?_⟩
  · rw [ht]
    exact hu.processor
  · rw [ht]
    exact hu.committed
  · rw [ht, Event.commits_of_quiet hq]
    rfl
  · rw [ht]
  · rw [ht]
    exact ⟨debug, hu.underWay⟩
  · rw [ht]
    exact hu.breakpoints

theorem commits_release {s : Sequencer Ram} {r : Request} {hold : Hold} {debug : Bool}
    (hp : s.phase = .held s.processor.next hold) (hh : s.processor.next.isHole = false)
    (h : ∃ u es, Quiet es ∧ s.SetsOut u debug false ∧
      s.react (some r) = ⟨(u.commit s.processor.next).next, es ++ (u.commit s.processor.next).events⟩) :
    ∃ u es, (⟨s, [r]⟩ : Loop Ram).Commits 1 0 u es := by
  obtain ⟨u, es, hq, hu, hr⟩ := h
  refine ⟨u, es, ⟨debug, hu.underWay⟩, hu.breakpoints, hu.processor, hu.committed, ?_, ?_, ?_⟩
  · rw [Event.commits_of_quiet hq]
    rfl
  · rw [hu.processor, hh]
  · rw [turns_single (by simp [hp]), hr, hu.processor]

end Loop

namespace Course

/-- A sequencer that steps and was not told to leave holds back the instruction at the program counter, in a run
that is armed and not paused. -/
theorem stepping_follow (p : Processor Ram) (offers : List (Option Request))
    (hm : ((ofProcessor p).follow offers).now.mode = .stepping)
    (hl : ((ofProcessor p).follow offers).now.leaving = false) :
    let s := ((ofProcessor p).follow offers).now
    s.phase = .held s.processor.next .step ∧ s.processor.next.isHole = false ∧ s.fault = none ∧
      s.run.active = true ∧ s.run.paused = false ∧ s.run.armed = true := by
  obtain ⟨ht, ha⟩ := tidy_follow p offers
  have hf := fits_follow p offers
  have hd := (refines p offers).decoded
  intro s
  have hr : s.run.active = true := by
    by_contra hr
    simpa [s, hm, Mode.isActive] using (ht.ended hl (by simpa using hr)).2
  have hk : s.mode = s.activeMode := ha hr
  -- of the modes of a run only this one is told of an instruction that waits for a step
  obtain ⟨hu, hx⟩ : s.phase.isSuspended = true ∧ s.run.armed = true :=
    s.isSuspended_of_activeMode (by rw [← hk, hm])
  obtain ⟨-, op, hp⟩ := s.active_of_suspended hf hu
  have hg : s.run.paused = false := by
    cases hg : s.run.paused with
    | false => rfl
    | true => simp [hk, Sequencer.activeMode, hg, s] at hm
  obtain ⟨rfl, hh⟩ := Processor.next_of_ok (hd hr op (by rw [hp]; rfl))
  exact ⟨hp, hh, by simpa using ht.fault_eq_none (by simp [hm]), hr, hg, hx⟩

/-- Left alone after a start, or after stepping is given up where an instruction waits for a step, a sequencer
that was not asked to leave commits every instruction up to the first bound. The instruction that waited is
committed at a breakpoint, too. -/
theorem free_run (p : Processor Ram) (offers : List (Option Request)) (h : some .shutdown ∉ offers) :
    let s := ((ofProcessor p).follow offers).now
    (s.run.active = false → s.mode ≠ .halted → ∀ debug,
      (⟨s, [.start debug]⟩ : Loop Ram).RunsToBound 0) ∧
    (s.mode = .stepping →
      let l : Loop Ram := ⟨s, [.adjust (.sticky false)]⟩
      l.Counts 1 1 ∧
      if s.processor.next.form = .byte .stop then l.Ends 1 .stopped none else l.RunsToBound 1) := by
  intro s
  obtain ⟨ht, hm⟩ : s.Tidy ∧ s.Announced := tidy_follow p offers
  have hl : s.leaving = false := staying_follow rfl h
  have hf : s.phase.Fits s.run := fits_follow p offers
  have hg : s.phase ≠ .gone := fun hg => by simp [ht.gone hg] at hl
  refine ⟨fun ha hh debug => ?_, fun hs => ?_⟩
  · have hx : s.fault = none := by simpa using ht.fault_eq_none hh
    exact (Loop.reaches_start hg (s.react_start hf ha hh hx hl hg debug)).runsToBound (by simp)
  · intro l
    obtain ⟨hp, hh, hx, ha, hk, -⟩ := stepping_follow p offers hs hl
    have hr : s.run.adjust (.sticky false) = { active := true, debug := s.run.debug } := by
      simp [Run.adjust, s, ha, hk]
    obtain ⟨u, es, hc⟩ := Loop.commits_release hp hh (s.react_release hp hx hl hr)
    have hu : u.processor = s.processor := hc.processor
    refine ⟨hc.counts, ?_⟩
    rw [← hu]
    split
    next ho => exact hc.ends ho
    next ho =>
      refine (hc.reaches ho).runsToBound fun k hk => ?_
      obtain rfl : k = 0 := by omega
      exact ⟨0, rfl, rfl, rfl⟩

/-- A run leaves the breakpoint that held it; at the next one there is no instruction, so there the run ends. -/
theorem free_run_from_breakpoint :
    let offers : List (Option Request) :=
      [some (.addBreakpoint 0x0100), some (.addBreakpoint 0x0101), some (.start false), none]
    let s := ((ofProcessor { bus := Ram.empty.set 0x0101 0xD3 }).follow offers).now
    let l : Loop Ram := ⟨s, [.adjust (.sticky false)]⟩
    some .shutdown ∉ offers ∧ s.mode = .stepping ∧
      l.Counts 1 1 ∧ l.Ends 1 .halted (some ⟨⟨0xD3⟩, 0x0101⟩) := by
  intro offers s l
  have h : some .shutdown ∉ offers := by decide
  have hm : s.mode = .stepping := rfl
  have hc : s.processor.next = ⟨0⟩ := rfl
  have hn : s.processor.steps 1 = s.processor.jump 0x0101 := by
    have hh : s.processor.next.isHole = false := by
      rw [hc]
      decide
    have hx : s.processor.steps 1 = (s.processor.execute s.processor.next).2 := Processor.step_of_fit hh
    rw [hx, hc]
    rfl
  have hd : (s.processor.steps 1).next = ⟨0xD3⟩ := by
    rw [hn]
    rfl
  have hx : (s.processor.steps 1).next.isHole = true := by
    rw [hd]
    decide
  have ho : s.processor.next.form ≠ .byte .stop := by
    rw [hc]
    decide
  obtain ⟨hk, hr⟩ := (free_run _ offers h).2 hm
  rw [if_neg ho] at hr
  have he : l.Ends 1 .halted (some ⟨(s.processor.steps 1).next, (s.processor.steps 1).regs.pc⟩) :=
    (if_pos hx).mp (hr.1 1 ⟨⟨by omega, .inl hx⟩, fun k hk => hk.1⟩)
  rw [hd, hn] at he
  exact ⟨h, hm, hk, he⟩

end Course

end Sm83
