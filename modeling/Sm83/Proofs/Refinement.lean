import Sm83.Bus.Ram
import Sm83.Proofs.Fetch
import Sm83.Proofs.Watch

/-!
A sequencer carries out the steps of its processor and nothing else. Flat memory is not changed by reading it,
so an instruction in hand stays the one at the program counter until it is committed or given up.
-/

set_option autoImplicit false

namespace Sm83

namespace Processor

theorem decode_next (p : Processor Ram) : p.decode.2 = p := rfl

def step? (p : Processor Ram) : Option (Completion × Processor Ram) :=
  match p.step with
  | (.ok r, q) => some (r, q)
  | (.error _, _) => none

theorem step_of_fit {p : Processor Ram} (h : p.next.isHole = false) : p.step.2 = (p.execute p.next).2 := by
  rw [step_of_next h]
  rfl

theorem step?_of_decode {p : Processor Ram} {op : Opcode} (h : p.decode.1 = .ok op) :
    p.step? = some (p.execute op) := by
  obtain ⟨rfl, hh⟩ := next_of_ok h
  rw [step?, step_of_next hh]
  rfl

/-- The processor after as many steps, none of which met a fault. -/
def after (p : Processor Ram) : Nat → Option (Processor Ram)
  | 0 => some p
  | n + 1 => (p.after n).bind fun q => q.step?.map Prod.snd

/-- What the step of number `i` carries out, and the registers after it. -/
def entry (p : Processor Ram) (i : Nat) : Option (Option Opcode × Registers) :=
  ((p.after i).bind step?).map fun (r, q) => (some r.opcode, q.regs)

end Processor

namespace Watch

variable {μ : Type} {w : Watch} {s : Sequencer μ}

theorem commits_hear (w : Watch) (r : Request) :
    (w.hear r).commits = if r = .reset then [] else w.commits := by
  cases r with
  | start debug => simp only [hear]; split <;> simp
  | adjust a =>
    cases a with
    | pause | resume => simp only [hear]; split <;> simp
    | _ => simp [hear]
  | _ => simp [hear, rest]

@[simp] theorem commits_announce (w : Watch) (s : Sequencer μ) (m : Mode) :
    (w.follow (s.announce m).events).commits = w.commits := by
  rw [Sequencer.events_announce]
  split <;> rfl

@[simp] theorem commits_announceRun (w : Watch) (s : Sequencer μ) :
    (w.follow s.announceRun.events).commits = w.commits := by
  unfold Sequencer.announceRun
  split
  · rw [commits_announce]
  · rfl

theorem commits_obey (w : Watch) (s : Sequencer μ) (r : Request) :
    (w.follow (s.obey r).events).commits = w.commits := by
  have h := s.obeyed r
  generalize s.obey r = t at h ⊢
  cases h with
  | heard run breakpoints leaving es hr he => rw [follow_remarks he]
  | run => rw [commits_announceRun]
  | stop => rw [commits_announce]
  | reset => rw [commits_announce]

theorem commits_take (w : Watch) (s : Sequencer μ) (r : Request) :
    (w.follow (s.take r).events).commits = if r = .reset then [] else w.commits := by
  rw [follow_take, commits_obey, commits_hear]

theorem commits_finish (w : Watch) (s : Sequencer μ) (r : Completion) :
    (w.follow (s.finish r).events).commits = w.commits := by
  cases ho : r.outcome <;> simp [Sequencer.finish, ho, see, rest]

theorem commits_lock (w : Watch) (s : Sequencer μ) (f : Fault) :
    (w.follow (s.lock f).events).commits = w.commits := by
  simp [Sequencer.lock, see, rest]

end Watch

/-- The processor is where as many steps as were committed have led, and the record tells of just these steps;
an instruction in hand is the next one. -/
structure Refines (base : Processor Ram) (w : Watch) (s : Sequencer Ram) (hand : Option Opcode) : Prop where
  agrees : w.Agrees s hand
  reached : base.after s.committed = some s.processor
  record : w.commits.map some = (List.range s.committed).map base.entry
  decoded : s.run.active = true → ∀ op, hand = some op → s.processor.decode.1 = .ok op

namespace Refines

variable {base : Processor Ram} {w : Watch} {s : Sequencer Ram} {hand : Option Opcode}

theorem commit {op : Opcode} (h : Refines base w s (some op)) (ha : s.run.active = true)
    (hk : (w.follow (s.commit op).events).Agrees (s.commit op).next none) :
    Refines base (w.follow (s.commit op).events) (s.commit op).next none := by
  have hs := Processor.step?_of_decode (h.decoded ha op rfl)
  have hw : w.hand = some op := h.agrees.hand_of_active ha
  have hc : (w.follow (s.commit op).events).commits =
      w.commits ++ [(some op, (s.processor.execute op).2.regs)] := by
    rw [Sequencer.commit_eq]
    simp only [Reaction.events_andThen, Reaction.next_andThen, Watch.follow_append,
      Watch.follow_settle, Watch.commits_finish, Watch.follow_retire]
    rw [hw]
    rfl
  have he : base.entry s.committed = some (some op, (s.processor.execute op).2.regs) := by
    simp only [Processor.entry, h.reached, Option.bind_some, hs]
    rfl
  refine ⟨hk, ?_, ?_, by simp⟩
  · rw [Sequencer.committed_commit, Sequencer.processor_commit]
    simp only [Processor.after, h.reached, Option.bind_some, hs]
    rfl
  · rw [hc, Sequencer.committed_commit, List.range_succ, List.map_append, List.map_append, h.record]
    simp [he]

theorem take (h : Refines base w s hand) (hs : s.run.active = false → hand = none) (r : Request) :
    Refines (if r = .reset then s.processor.reset else base) (w.follow (s.take r).events)
      (s.take r).next hand := by
  refine ⟨h.agrees.take hs r, ?_, ?_, ?_⟩
  · rw [Sequencer.next_take, Sequencer.processor_obey, Sequencer.committed_obey]
    split
    · rfl
    · exact h.reached
  · rw [Watch.commits_take, Sequencer.next_take, Sequencer.committed_obey]
    split
    · rfl
    · exact h.record
  · intro ha op ho
    rw [Sequencer.next_take] at ha ⊢
    have hr : r ≠ .reset := by
      intro hr
      simp [Sequencer.run_obey, hr] at ha
    have hx : s.run.active = true := by
      cases hx : s.run.active with
      | true => rfl
      | false => simp [hs hx] at ho
    rw [Sequencer.processor_obey, if_neg hr]
    exact h.decoded hx op ho

theorem keep {last : Option Opcode} {r : Reaction Ram} (h : Refines base w s hand)
    (hk : (w.follow r.events).Agrees r.next last) (hp : r.next.processor = s.processor)
    (hc : r.next.committed = s.committed) (hw : (w.follow r.events).commits = w.commits)
    (hd : r.next.run.active = true → ∀ op, last = some op → s.processor.decode.1 = .ok op) :
    Refines base (w.follow r.events) r.next last := by
  refine ⟨hk, ?_, ?_, ?_⟩
  · rw [hp, hc]
    exact h.reached
  · rw [hw, hc]
    exact h.record
  · rw [hp]
    exact hd

theorem move {last : Option Opcode} {r : Reaction Ram} (h : Refines base w s hand)
    (hm : Move s hand r last) : Refines base (w.follow r.events) r.next last := by
  have hk := h.agrees.move hm
  cases hm with
  | drop r hp =>
    refine h.keep hk ?_ ?_ ?_ (by simp)
    · simp [Sequencer.react, hp]
    · simp [Sequencer.react, hp]
    · cases r <;> simp [Sequencer.react, hp, Watch.see]
  | settle hs =>
    refine h.keep hk ?_ ?_ ?_ (by simp)
    · simp [Sequencer.next_settle]
    · simp [Sequencer.next_settle]
    · simp
  | @decode op hp ha hd =>
    refine h.keep hk rfl rfl ?_ ?_
    · simp [Watch.see]
    · intro _ x hx
      rw [← Option.some.inj hx]
      exact hd
  | lock hp ha hd =>
    refine h.keep hk ?_ ?_ ?_ (by simp)
    · exact Sequencer.processor_lock _ _
    · exact Sequencer.committed_lock _ _
    · rw [Reaction.events_andThen, Watch.follow_append, Watch.commits_lock, Watch.follow_check]
  | pause ha hp => exact h.keep hk rfl rfl rfl h.decoded
  | suspend ha hp hd hr =>
    refine h.keep hk ?_ ?_ ?_ ?_
    · simp
    · simp
    · simp
    · exact fun _ => h.decoded ha
  | release hp hr =>
    refine h.keep hk ?_ ?_ ?_ ?_
    · simp
    · simp
    · simp
    · exact fun ha => h.decoded (by simpa using ha)
  | commit hc => exact h.commit hc.active hk

end Refines

theorem Course.refines (p : Processor Ram) (offers : List (Option Request)) :
    let c := (ofProcessor p).follow offers
    Refines c.base (Watch.of c.told) c.now c.now.phase.held? := by
  refine follow_holds (J := fun base told s hand => Refines base (Watch.of told) s hand) p ?_ ?_ ?_ offers
  · exact ⟨⟨rfl, rfl, rfl, by simp [Sequencer.ofProcessor]⟩, rfl, rfl, by simp⟩
  · intro base told s hand r h hs
    rw [Watch.of_append]
    exact h.take hs r
  · intro base told s hand r last h hm
    rw [Watch.of_append]
    exact h.move hm

namespace Refines

variable {base : Processor Ram} {w v : Watch} {s t : Sequencer Ram} {hand held : Option Opcode}

theorem fault (h : Refines base w s hand) {offer : Option Request}
    (he : .entered .halted ∈ (s.react offer).events) :
    ∃ f, s.processor.step = (.error f, s.processor) ∧
      (s.react offer).next.processor = s.processor ∧
      (s.react offer).next.published =
        { mode := .halted, regs := s.processor.regs, fault := some f, committed := s.committed } := by
  obtain ⟨rfl, -, ha, hh, hr⟩ := Sequencer.react_of_fault he rfl (by simp)
  have hm : s.check.next.mode ≠ .halted := by
    have ho : s.check.next.mode = s.activeMode := h.agrees.announced ha
    rw [ho]
    exact s.activeMode_ne_halted
  refine ⟨⟨s.processor.next, s.processor.regs.pc⟩, Processor.step_of_hole hh, ?_, ?_⟩
  · rw [hr, Reaction.next_andThen, Sequencer.processor_lock]
    rfl
  · rw [hr, Reaction.next_andThen, Sequencer.published_lock hm]
    rfl

theorem isPrefix (h : Refines base w s hand) (k : Refines base v t held)
    (hc : s.committed ≤ t.committed) : w.commits <+: v.commits := by
  have hr : List.range s.committed = (List.range t.committed).take s.committed := by
    rw [List.take_range, Nat.min_eq_left hc]
  have hm : w.commits.map some = (v.commits.take s.committed).map some := by
    rw [List.map_take, k.record, h.record, hr, List.map_take]
  have hw : w.commits = v.commits.take s.committed :=
    (List.map_inj_right fun _ _ => Option.some.inj).1 hm
  rw [hw]
  exact List.take_prefix _ _

end Refines

namespace Course

/-- Whatever is offered, and whenever: the processor is the base after as many steps as were committed, each of
which carried out the instruction decoded last, and left the registers told; the next step meets the fault that
halts the sequencer; and two courses with the same base differ only in how far they have come. -/
theorem steps_in_order (p : Processor Ram) (offers : List (Option Request)) :
    let c := (ofProcessor p).follow offers
    c.base.after c.now.committed = some c.now.processor ∧
    (Watch.of c.told).commits.map some = (List.range c.now.committed).map c.base.entry ∧
    (∀ o, .entered .halted ∈ (c.now.react o).events →
      ∃ f, c.now.processor.step = (.error f, c.now.processor) ∧
        (c.now.react o).next.processor = c.now.processor ∧
        (c.now.react o).next.published.mode = .halted ∧
        (c.now.react o).next.published.fault = some f) ∧
    ∀ q others, let d := (ofProcessor q).follow others
      d.base = c.base → d.now.committed ≤ c.now.committed →
        (Watch.of d.told).commits <+: (Watch.of c.told).commits ∧
          (d.now.committed = c.now.committed → d.now.processor = c.now.processor) := by
  intro c
  have h : Refines c.base (Watch.of c.told) c.now c.now.phase.held? := refines p offers
  refine ⟨h.reached, h.record, ?_, ?_⟩
  · intro o ho
    obtain ⟨f, hs, hp, hq⟩ := h.fault ho
    exact ⟨f, hs, hp, by rw [hq], by rw [hq]⟩
  · intro q others d hb hc
    have k : Refines d.base (Watch.of d.told) d.now d.now.phase.held? := refines q others
    rw [hb] at k
    refine ⟨k.isPrefix h hc, fun he => ?_⟩
    have hr := k.reached
    rw [he, h.reached] at hr
    exact (Option.some.inj hr).symm

end Course

end Sm83
