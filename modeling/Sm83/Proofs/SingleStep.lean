import Sm83.Proofs.FreeRun
import Sm83.Proofs.Publication

/-!
Going through a program by single steps. Each of them commits the instruction that waits and brings up the one
after it, breakpoint or not, until a stop was committed or there is no instruction to bring up.
-/

set_option autoImplicit false

namespace Sm83

/-- A run can get no further: there is no instruction at `p`, or it is a stop. -/
def Processor.Closes (p : Processor Ram) : Prop := p.next.isHole = true ∨ p.next.form = .byte .stop

namespace Loop

variable {μ : Type} [Bus μ] {l : Loop μ} {r : Request}

/-- The request is sent whenever nothing happens any more, `n` times in all. In each of the rounds the loop
takes turns until nothing happens again, and tells what `told` has for that round. -/
inductive Rounds (r : Request) (l : Loop μ) : Nat → Loop μ → List (List Event) → Prop where
  | start : Rounds r l 0 l []
  | next {n m : Nat} {k : Loop μ} {told : List (List Event)} : Rounds r l n k told →
      ((k.send [r]).turns m).1.inbox = [] → ((k.send [r]).turns m).1.isBlocked = true →
      Rounds r l (n + 1) ((k.send [r]).turns m).1 (told ++ [((k.send [r]).turns m).2])

theorem turns_unique {m n : Nat} (hi : (l.turns m).1.inbox = []) (hb : (l.turns m).1.isBlocked = true)
    (hj : (l.turns n).1.inbox = []) (hc : (l.turns n).1.isBlocked = true) : l.turns n = l.turns m := by
  rcases Nat.le_total m n with h | h
  · obtain ⟨i, rfl⟩ := Nat.exists_eq_add_of_le h
    exact turns_of_blocked hi hb i
  · obtain ⟨i, rfl⟩ := Nat.exists_eq_add_of_le h
    exact (turns_of_blocked hj hc i).symm

theorem Rounds.unique {n : Nat} {k j : Loop μ} {told tell : List (List Event)} (h : l.Rounds r n k told)
    (g : l.Rounds r n j tell) : j = k ∧ tell = told := by
  induction h generalizing j tell with
  | start =>
    cases g
    exact ⟨rfl, rfl⟩
  | next _ hi hb ih =>
    cases g with
    | next hg hj hc =>
      obtain ⟨rfl, rfl⟩ := ih hg
      rw [turns_unique hi hb hj hc]
      exact ⟨rfl, rfl⟩

end Loop

namespace Sequencer

/-- An instruction waits for a step in a run that goes by steps. -/
structure Awaits (s : Sequencer Ram) : Prop where
  phase : s.phase = .held s.processor.next .step
  decoded : s.processor.next.isHole = false
  run : s.run = { active := true, debug := true, armed := true, sticky := true }
  mode : s.mode = .stepping
  sound : s.fault = none
  staying : s.leaving = false
  published : s.published = s.status

variable {s : Sequencer Ram}

theorem Awaits.rests (h : s.Awaits) : s.Rests s.processor .stepping none s.committed :=
  ⟨by simp [Loop.isBlocked, h.phase], by simp [h.phase], rfl, by simp [status, h.mode, h.sound], h.published⟩

theorem Spent.react (h : s.Spent) (a : Adjustment) :
    s.react (some (.adjust a)) = ⟨s, [.note (.taken (.adjust a)), .note (.noRun a)]⟩ := by
  have hb : s.between = s.phase := by simp [between, h.phase, h.inactive, h.staying]
  have hn : s.settle.next = s := by rw [next_settle, hb]
  have he : s.settle.events = [] := by simp [events_settle, h.staying]
  have hs : s.settle = ⟨s, []⟩ := congrArg₂ Reaction.mk hn he
  simp [Sequencer.react, h.phase, take, saying, obey, h.inactive, hs, Reaction.andThen]

namespace UnderWay

/-- A run that goes by steps arms itself before every instruction. -/
theorem check_sticky (h : s.UnderWay true true) : s.check.next =
    { s with run := { active := true, debug := true, armed := true, sticky := true } } := by
  by_cases hb : s.atBreakpoint = true
  · simp [Sequencer.check, hb, Run.rearm, Run.meetBreakpoint, h.run, s.processor.decode_next]
  · simp [Sequencer.check, hb, Run.rearm, h.run, s.processor.decode_next]

theorem react_sticky (h : s.UnderWay true true) (hh : s.processor.next.isHole = false) :
    Quiet (s.react none).events ∧ (s.react none).next.Awaits ∧
      (s.react none).next.processor = s.processor ∧ (s.react none).next.committed = s.committed := by
  have hr : s.react none = (s.check.andThen (·.saying (.decoded s.processor.next))).andThen
      fun s => { s with phase := .held s.processor.next .step }.announce .stepping := by
    rw [h.react, begin_eq, Processor.decode_fst, hh]
    simp [Reaction.andThen, saying, h.check_sticky, Sequencer.consider, Sequencer.announceRun, activeMode,
      Phase.isSuspended]
  rw [hr]
  refine ⟨by simp, ?_, ?_, ?_⟩
  · simp only [Reaction.next_andThen, next_saying, h.check_sticky, next_announce, h.mode]
    exact ⟨rfl, hh, rfl, rfl, h.sound, h.staying, rfl⟩
  · simp [h.check_sticky, next_announce]
  · simp [h.check_sticky, next_announce]

end UnderWay

/-- The instruction that waited is committed, and the next one is not begun. -/
structure Passes (s : Sequencer Ram) (r : Reaction Ram) : Prop where
  processor : r.next.processor = s.processor.step.2
  committed : r.next.committed = s.committed + 1
  told : Event.commits r.events = [s.processor.step.2.regs]
  stops : s.processor.next.form = .byte .stop →
    r.next.Spent ∧ r.next.Rests s.processor.step.2 .stopped none (s.committed + 1)
  goes : s.processor.next.form ≠ .byte .stop → r.next.UnderWay true true

theorem Awaits.passes (h : s.Awaits) : s.Passes (s.react (some (.adjust .singleStep))) := by
  have ha : s.run.adjust .singleStep = { active := true, debug := true, sticky := true } := by
    simp [Run.adjust, h.run]
  obtain ⟨u, es, hq, ⟨hu, hp, -, hc⟩, hr⟩ := s.react_release h.phase h.sound h.staying ha
  have hs : (u.processor.execute s.processor.next).2 = s.processor.step.2 := by
    rw [hp, Processor.step_of_fit h.decoded]
  rw [hr]
  refine ⟨?_, ?_, ?_, fun ho => ?_, fun ho => (hu.commit ho).1⟩
  · rw [processor_commit, hs]
  · rw [committed_commit, hc]
  · rw [Event.commits_append, Event.commits_of_quiet hq, commits_commit, hs, List.nil_append]
  · rw [← hs, ← hc]
    exact hu.commit_stop ho

end Sequencer

namespace Loop

variable {l k : Loop Ram} {n : Nat} {told : List (List Event)}

structure Refuses (l : Loop Ram) : Prop where
  inbox : l.inbox = []
  waits : l.isBlocked = true
  refused : (l.send [.adjust .singleStep]).turn =
    (l, [.note (.taken (.adjust .singleStep)), .note (.noRun .singleStep)])

theorem Refuses.of_spent {s : Sequencer Ram} (h : s.Spent) : (⟨s, []⟩ : Loop Ram).Refuses := by
  refine ⟨rfl, by simp [isBlocked, h.phase], ?_⟩
  have ht : (⟨s, [.adjust .singleStep]⟩ : Loop Ram).turn = _ := turn_eq (by simp [h.phase])
  rw [send, List.nil_append, ht, List.head?_cons, h.react]
  rfl

/-- How a round ends in which `l` commits an instruction: the next one waits, unless that was a stop, or there
is no next one. -/
inductive Leads (l k : Loop Ram) : Prop where
  | stopped : l.sequencer.processor.next.form = .byte .stop → k.Refuses →
      k.sequencer.Rests k.sequencer.processor .stopped none k.sequencer.committed → Leads l k
  | halted : l.sequencer.processor.next.form ≠ .byte .stop → k.sequencer.processor.next.isHole = true →
      k.Refuses → k.sequencer.Rests k.sequencer.processor .halted
        (some ⟨k.sequencer.processor.next, k.sequencer.processor.regs.pc⟩) k.sequencer.committed →
      Leads l k
  | stepping : l.sequencer.processor.next.form ≠ .byte .stop → k.sequencer.processor.next.isHole = false →
      k.sequencer.Awaits → Leads l k

/-- A round of `l` in which the instruction that waits is committed. -/
structure Advances (l k : Loop Ram) (es : List Event) : Prop where
  inbox : k.inbox = []
  waits : k.isBlocked = true
  processor : k.sequencer.processor = l.sequencer.processor.step.2
  committed : k.sequencer.committed = l.sequencer.committed + 1
  told : Event.commits es = [l.sequencer.processor.step.2.regs]
  leads : l.Leads k

/-- A single step takes two turns: the instruction is committed in the first one, the next is begun in the
other. -/
theorem advances {s : Sequencer Ram} (h : s.Awaits) :
    let t := (⟨s, [.adjust .singleStep]⟩ : Loop Ram).turns 2
    (⟨s, []⟩ : Loop Ram).Advances t.1 t.2 := by
  have ht := turns_single (s := s) (r := .adjust .singleStep) (by simp [h.phase])
  have hp := h.passes
  generalize s.react (some (.adjust .singleStep)) = r at ht hp
  obtain ⟨v, es⟩ := r
  intro t
  by_cases ho : s.processor.next.form = .byte .stop
  · -- the run is over after the first turn, so that nothing happens in the second
    obtain ⟨hs, hr⟩ := hp.stops ho
    have hx : t = (⟨v, []⟩, es) := by
      rw [← ht]
      exact turns_of_blocked (by rw [ht]) (by rw [ht]; exact hr.waits) 1
    rw [← hp.processor, ← hp.committed] at hr
    rw [hx]
    exact ⟨rfl, hr.waits, hp.processor, hp.committed, hp.told, .stopped ho (.of_spent hs) hr⟩
  · have hv : v.UnderWay true true := hp.goes ho
    have hx : t = (⟨(v.react none).next, []⟩, es ++ (v.react none).events) := by
      have hy : t = _ := turns_succ ⟨s, [.adjust .singleStep]⟩ 1
      rw [hy, ht, turn_eq (by simp [hv.phase])]
      rfl
    have told (hq : Quiet (v.react none).events) :
        Event.commits (es ++ (v.react none).events) = [s.processor.step.2.regs] := by
      rw [Event.commits_append, Event.commits_of_quiet hq, List.append_nil, hp.told]
    rw [hx]
    cases hh : v.processor.next.isHole with
    | true =>
      obtain ⟨hq, hs, hr⟩ := hv.react_hole hh
      have hw : (v.react none).next.processor = v.processor := hr.processor
      have hm : (v.react none).next.committed = v.committed := congrArg Status.committed hr.status
      refine ⟨rfl, hr.waits, hw.trans hp.processor, hm.trans hp.committed, told hq, ?_⟩
      exact .halted ho (by rw [hw, hh]) (.of_spent hs) (by rw [hw, hm]; exact hr)
    | false =>
      obtain ⟨hq, ha, hw, hm⟩ := hv.react_sticky hh
      refine ⟨rfl, ha.rests.waits, hw.trans hp.processor, hm.trans hp.committed, told hq, ?_⟩
      exact .stepping ho (by rw [hw, hh]) ha

/-- After `n` rounds all `n` steps are done, one in each round, and the next instruction waits. -/
structure Stepped (l : Loop Ram) (n : Nat) (k : Loop Ram) (told : List (List Event)) : Prop where
  inbox : k.inbox = []
  rests : k.sequencer.Rests (l.sequencer.processor.steps n) .stepping none (l.sequencer.committed + n)
  told : told.map Event.commits =
    (List.range n).map fun i => [(l.sequencer.processor.steps (i + 1)).regs]

/-- After `e` of `n` rounds there were no more steps to do, so that nothing changed any more. -/
structure Finished (l : Loop Ram) (e : Nat) (m : Mode) (f : Option Fault) (n : Nat) (k : Loop Ram)
    (told : List (List Event)) : Prop where
  rests : k.sequencer.Rests (l.sequencer.processor.steps e) m f (l.sequencer.committed + e)
  told : told.map Event.commits =
    (List.range n).map fun i => if i < e then [(l.sequencer.processor.steps (i + 1)).regs] else []
  refuses : k.Refuses

inductive Walked (l : Loop Ram) (n : Nat) (k : Loop Ram) (told : List (List Event)) : Prop where
  | stepping : k.sequencer.Awaits → (∀ i < n, ¬ (l.sequencer.processor.steps i).Closes) →
      l.Stepped n k told → Walked l n k told
  | halted {j : Nat} : IsLeast {i | (l.sequencer.processor.steps i).Closes} j → j ≤ n →
      (l.sequencer.processor.steps j).next.isHole = true →
      l.Finished j .halted
        (some ⟨(l.sequencer.processor.steps j).next, (l.sequencer.processor.steps j).regs.pc⟩) n k told →
      Walked l n k told
  | stopped {j : Nat} : IsLeast {i | (l.sequencer.processor.steps i).Closes} j → j < n →
      (l.sequencer.processor.steps j).next.isHole = false → l.Finished (j + 1) .stopped none n k told →
      Walked l n k told

theorem Finished.next {e : Nat} {m : Mode} {f : Option Fault} (h : l.Finished e m f n k told) (he : e ≤ n) :
    l.Finished e m f (n + 1) k
      (told ++ [[.note (.taken (.adjust .singleStep)), .note (.noRun .singleStep)]]) := by
  refine ⟨h.rests, ?_, h.refuses⟩
  rw [List.map_append, h.told, List.range_succ, List.map_append, List.map_singleton, List.map_singleton,
    if_neg (by omega)]
  rfl

namespace Stepped

variable {t : Loop Ram} {es : List Event}

theorem advance (h : l.Stepped n k told) (ha : k.Advances t es) :
    t.sequencer.processor = l.sequencer.processor.steps (n + 1) ∧
    t.sequencer.committed = l.sequencer.committed + (n + 1) ∧
    (told ++ [es]).map Event.commits =
      (List.range (n + 1)).map fun i => [(l.sequencer.processor.steps (i + 1)).regs] := by
  have hs : k.sequencer.processor.step.2 = l.sequencer.processor.steps (n + 1) := by
    rw [h.rests.processor]
    rfl
  have hc : k.sequencer.committed = l.sequencer.committed + n := congrArg Status.committed h.rests.status
  refine ⟨ha.processor.trans hs, by rw [ha.committed, hc, Nat.add_assoc], ?_⟩
  rw [List.map_append, h.told, List.range_succ, List.map_append, List.map_singleton, List.map_singleton, ha.told,
    hs]

theorem next (h : l.Stepped n k told) (ha : k.Advances t es) (hw : t.sequencer.Awaits) :
    l.Stepped (n + 1) t (told ++ [es]) := by
  obtain ⟨hp, hc, ht⟩ := h.advance ha
  refine ⟨ha.inbox, ?_, ht⟩
  rw [← hp, ← hc]
  exact hw.rests

theorem finish {m : Mode} {f : Option Fault} (h : l.Stepped n k told) (ha : k.Advances t es)
    (hf : t.Refuses) (hr : t.sequencer.Rests t.sequencer.processor m f t.sequencer.committed) :
    l.Finished (n + 1) m f (n + 1) t (told ++ [es]) := by
  obtain ⟨hp, hc, ht⟩ := h.advance ha
  refine ⟨?_, ?_, hf⟩
  · rw [← hp, ← hc]
    exact hr
  · rw [ht]
    exact List.map_congr_left fun i hi => (if_pos (List.mem_range.1 hi)).symm

/-- Where a run is after one more step depends on the instruction that waited, and on the one behind it. -/
theorem walk (h : l.Stepped n k told) (hw : k.sequencer.Awaits)
    (hc : ∀ i < n, ¬ (l.sequencer.processor.steps i).Closes) (ha : k.Advances t es) :
    l.Walked (n + 1) t (told ++ [es]) := by
  have hp : k.sequencer.processor = l.sequencer.processor.steps n := h.rests.processor
  have hq : t.sequencer.processor = l.sequencer.processor.steps (n + 1) := (h.advance ha).1
  have hd : (l.sequencer.processor.steps n).next.isHole = false := by rw [← hp, hw.decoded]
  have least {j : Nat} (hj : (l.sequencer.processor.steps j).Closes)
      (hb : ∀ i < j, ¬ (l.sequencer.processor.steps i).Closes) :
      IsLeast {i | (l.sequencer.processor.steps i).Closes} j :=
    ⟨hj, fun i hi => Nat.le_of_not_lt fun hlt => hb i hlt hi⟩
  -- the instruction that waited was not a hole, so it closes nothing unless it is a stop
  have past (ho : k.sequencer.processor.next.form ≠ .byte .stop) :
      ∀ i < n + 1, ¬ (l.sequencer.processor.steps i).Closes := by
    intro i hi hcl
    rcases Nat.lt_succ_iff_lt_or_eq.1 hi with hlt | rfl
    · exact hc i hlt hcl
    · rw [Processor.Closes, hd, ← hp] at hcl
      exact ho (hcl.resolve_left Bool.false_ne_true)
  cases ha.leads with
  | stopped ho hf hr =>
    rw [hp] at ho
    exact .stopped (least (.inr ho) hc) (Nat.lt_succ_self n) hd (h.finish ha hf hr)
  | halted ho hh hf hr =>
    have he := h.finish ha hf hr
    rw [hq] at hh he
    exact .halted (least (.inl hh) (past ho)) (Nat.le_refl _) hh he
  | stepping ho _ hx => exact .stepping hx (past ho) (h.next ha hx)

end Stepped

theorem Rounds.refuse (h : l.Rounds (.adjust .singleStep) n k told) (hk : k.Refuses) :
    l.Rounds (.adjust .singleStep) (n + 1) k
      (told ++ [[.note (.taken (.adjust .singleStep)), .note (.noRun .singleStep)]]) := by
  have ht : (k.send [.adjust .singleStep]).turns 1 = _ := (turns_one _).trans hk.refused
  have hn := h.next (m := 1) (by rw [ht]; exact hk.inbox) (by rw [ht]; exact hk.waits)
  rwa [ht] at hn

theorem walks {s : Sequencer Ram} (h : s.Awaits) (n : Nat) :
    ∃ k told, (⟨s, []⟩ : Loop Ram).Rounds (.adjust .singleStep) n k told ∧
      (⟨s, []⟩ : Loop Ram).Walked n k told := by
  induction n with
  | zero => exact ⟨_, [], .start, .stepping h (by simp) ⟨rfl, h.rests, rfl⟩⟩
  | succ n ih =>
    obtain ⟨k, told, hr, hw⟩ := ih
    cases hw with
    | halted hj hn hh hf => exact ⟨k, _, hr.refuse hf.refuses, .halted hj (by omega) hh (hf.next hn)⟩
    | stopped hj hn hh hf => exact ⟨k, _, hr.refuse hf.refuses, .stopped hj (by omega) hh (hf.next hn)⟩
    | stepping ha hc hs =>
      obtain ⟨u, inbox⟩ := k
      obtain rfl : inbox = [] := hs.inbox
      have hx := advances ha
      exact ⟨_, _, hr.next (m := 2) hx.inbox hx.waits, hs.walk ha hc hx⟩

end Loop

theorem Course.awaits_follow (p : Processor Ram) (offers : List (Option Request))
    (hm : ((ofProcessor p).follow offers).now.mode = .stepping)
    (hl : ((ofProcessor p).follow offers).now.leaving = false) : ((ofProcessor p).follow offers).now.Awaits := by
  obtain ⟨hp, hh, hf, hr, hg, hx⟩ := stepping_follow p offers hm hl
  have hc := coherent_follow p offers
  have hq : ((ofProcessor p).follow offers).now.published = ((ofProcessor p).follow offers).now.status := by
    rcases silent_or_current p offers with hs | hs
    · simp [hs.mode] at hm
    · exact hs.published
  generalize ((ofProcessor p).follow offers).now = s at *
  have hs := hc.sticky hx
  have he : s.run = ⟨s.run.active, s.run.paused, s.run.debug, s.run.armed, s.run.sticky⟩ := rfl
  rw [hr, hg, hc.debug hs, hx, hs] at he
  exact ⟨hp, hh, he, hm, hf, hl, hq⟩

/-- A sequencer that steps, and was not told to leave, is asked for single steps, each when nothing else is
left to do. Each of them commits one instruction, and the sequencer steps on, breakpoints or not, as long as
there is neither a stop before the last of them nor a hole behind one. A stop is still committed, and with it
the run is over, as it is in front of a hole; from then on nothing changes. There are such rounds for every
number of steps, and they have one outcome. -/
theorem Course.single_steps (p : Processor Ram) (offers : List (Option Request))
    (hm : ((ofProcessor p).follow offers).now.mode = .stepping)
    (hl : ((ofProcessor p).follow offers).now.leaving = false) :
    let s := ((ofProcessor p).follow offers).now
    let l : Loop Ram := ⟨s, []⟩
    let m := s.processor.steps
    ∀ n, (∃ k told, l.Rounds (.adjust .singleStep) n k told) ∧
      ∀ k told, l.Rounds (.adjust .singleStep) n k told →
        ((∀ i < n, (m i).next.form ≠ .byte .stop) →
          (∀ i, 1 ≤ i → i ≤ n → (m i).next.isHole = false) → l.Stepped n k told) ∧
        ∀ j, IsLeast {i | (m i).Closes} j →
          if (m j).next.isHole then
            j ≤ n → l.Finished j .halted (some ⟨(m j).next, (m j).regs.pc⟩) n k told
          else j < n → l.Finished (j + 1) .stopped none n k told := by
  intro s l m n
  have h : s.Awaits := awaits_follow p offers hm hl
  obtain ⟨k, told, hr, hw⟩ := Loop.walks h n
  refine ⟨⟨k, told, hr⟩, fun j tell hx => ?_⟩
  obtain ⟨rfl, rfl⟩ := hr.unique hx
  cases hw with
  | stepping ha hc hs =>
    refine ⟨fun _ _ => hs, fun i hi => ?_⟩
    have hp : j.sequencer.processor = m n := hs.rests.processor
    have hn : (m n).next.isHole = false := by rw [← hp, ha.decoded]
    have hlt : n ≤ i := Nat.le_of_not_lt fun hlt => hc i hlt hi.1
    split
    next hh =>
      intro hle
      obtain rfl : i = n := by omega
      simp [hn] at hh
    next => exact fun hlt => absurd hlt (by omega)
  | @halted i hi hn hh hf =>
    refine ⟨fun _ hx => ?_, fun e he => ?_⟩
    · have h0 : i ≠ 0 := by
        rintro rfl
        simp [Processor.steps, h.decoded] at hh
      have hy : (m i).next.isHole = false := hx i (by omega) hn
      exact absurd (hy.symm.trans hh) Bool.false_ne_true
    · obtain rfl : e = i := he.unique hi
      rw [if_pos hh]
      exact fun _ => hf
  | @stopped i hi hn hh hf =>
    refine ⟨fun hx _ => ?_, fun e he => ?_⟩
    · have hcl : (m i).Closes := hi.1
      exact absurd (hcl.resolve_left (by simp [m, hh])) (hx i hn)
    · obtain rfl : e = i := he.unique hi
      rw [if_neg (by simp [m, hh])]
      exact fun _ => hf

/-- The step from a breakpoint leads to a stop, which is the next step; a third one is refused. -/
theorem Course.single_steps_to_stop :
    let offers : List (Option Request) := [some (.addBreakpoint 0x0100), some (.start false), none]
    let s := ((ofProcessor { bus := Ram.empty.set 0x0101 0x10 }).follow offers).now
    let l : Loop Ram := ⟨s, []⟩
    s.mode = .stepping ∧ s.leaving = false ∧
      (∃ k told, l.Rounds (.adjust .singleStep) 1 k told ∧ l.Stepped 1 k told) ∧
      ∃ k told, l.Rounds (.adjust .singleStep) 3 k told ∧ l.Finished 2 .stopped none 3 k told := by
  intro offers s l
  have hm : s.mode = .stepping := rfl
  have hl : s.leaving = false := rfl
  have hc : s.processor.next = ⟨0⟩ := rfl
  have hn : s.processor.steps 1 = s.processor.jump 0x0101 := by
    have hh : s.processor.next.isHole = false := by
      rw [hc]
      decide
    have hx : s.processor.steps 1 = (s.processor.execute s.processor.next).2 := Processor.step_of_fit hh
    rw [hx, hc]
    rfl
  have hd : (s.processor.steps 1).next = ⟨0x10⟩ := by
    rw [hn]
    rfl
  have h0 : (s.processor.steps 0).next.form ≠ .byte .stop ∧ (s.processor.steps 0).next.isHole = false := by
    have hz : (s.processor.steps 0).next = ⟨0⟩ := hc
    rw [hz]
    decide
  have hh : (s.processor.steps 1).next.isHole = false := by
    rw [hd]
    decide
  have hj : IsLeast {i | (s.processor.steps i).Closes} 1 := by
    refine ⟨.inr (by rw [hd]; decide), fun i hi => ?_⟩
    cases i with
    | zero => exact absurd (hi.resolve_left (by simp [h0.2])) h0.1
    | succ i => omega
  obtain ⟨⟨k, told, hk⟩, hx⟩ := single_steps _ offers hm hl 1
  obtain ⟨⟨j, tell, hr⟩, hy⟩ := single_steps _ offers hm hl 3
  refine ⟨hm, hl, ⟨k, told, hk, (hx k told hk).1 ?_ ?_⟩, j, tell, hr, ?_⟩
  · intro i hi
    obtain rfl : i = 0 := by omega
    exact h0.1
  · intro i h1 hi
    obtain rfl : i = 1 := by omega
    exact hh
  · have hx : ¬ (s.processor.steps 1).next.isHole = true := by simp [hh]
    exact (if_neg hx).mp ((hy j tell hr).2 1 hj) (by omega)

end Sm83
