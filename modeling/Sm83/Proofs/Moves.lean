import Sm83.Proofs.Operations

/-!
A reaction taken apart: a request taken, if there is one, and then moves, one for each thing a sequencer does
by itself. What all of these keep is kept by the reaction.
-/

set_option autoImplicit false

namespace Sm83

/-- At rest there is no run; an instruction is held back only in a run, and for a reason. -/
def Phase.Fits (run : Run) : Phase → Prop
  | .rest => run.active = false
  | .gather | .gone => True
  | .held _ .pause => run.active = true ∧ run.paused = true
  | .held _ .step => run.active = true ∧ run.armed = true

theorem Phase.Fits.held?_eq_none {run : Run} {p : Phase} (h : p.Fits run) (ha : run.active = false) :
    p.held? = none := by
  cases p with
  | held op hold => cases hold <;> simp_all [Phase.Fits]
  | _ => rfl

namespace Sequencer

variable {μ : Type}

theorem fits_settle (s : Sequencer μ) : s.settle.next.phase.Fits s.settle.next.run := by
  rw [next_settle]
  simp only [between]
  split
  · trivial
  · split
    · trivial
    · simp_all [Phase.Fits]

theorem phase_lock (s : Sequencer μ) (f : Fault) :
    (s.lock f).next.phase.Fits (s.lock f).next.run ∧ (s.lock f).next.phase.held? = none :=
  ⟨fits_settle _, held?_settle _⟩

variable [Bus μ]

theorem phase_commit (s : Sequencer μ) (op : Opcode) :
    (s.commit op).next.phase.Fits (s.commit op).next.run ∧ (s.commit op).next.phase.held? = none :=
  ⟨fits_settle _, held?_settle _⟩

theorem fits_consider (s : Sequencer μ) (op : Opcode) :
    (s.consider op).next.phase.Fits (s.consider op).next.run := by
  by_cases ha : s.run.active = true
  · by_cases hp : s.run.paused = true
    · simp [consider, ha, hp, Phase.Fits]
    · by_cases hs : (s.run.debug && s.run.armed) = true
      · simp only [Bool.and_eq_true] at hs
        simp [consider, ha, hp, hs, Phase.Fits]
      · simpa [consider, ha, hp, hs] using (s.phase_commit op).1
  · simpa [consider, ha] using s.fits_settle

theorem fits_begin (s : Sequencer μ) : s.begin.next.phase.Fits s.begin.next.run := by
  rw [begin_eq]
  cases s.processor.decode.1 with
  | error f => exact (phase_lock _ f).1
  | ok op => exact fits_consider _ op

theorem fits_react (s : Sequencer μ) (offer : Option Request) (h : s.phase.Fits s.run) :
    (s.react offer).next.phase.Fits (s.react offer).next.run := by
  cases hp : s.phase with
  | rest =>
    cases offer with
    | none => simpa [react, hp] using h
    | some r => simpa [react, hp] using fits_settle _
  | gather =>
    cases offer with
    | none =>
      by_cases ha : s.run.active = true
      · simpa [react, hp, ha] using s.fits_begin
      · simpa [react, hp, ha] using s.fits_settle
    | some r => simp [react, hp, Phase.Fits]
  | held op hold =>
    cases offer with
    | none =>
      cases hold <;> simpa [react, hp] using h
    | some r =>
      cases hold with
      | pause =>
        simp only [react, hp, Reaction.next_andThen]
        split
        next hk => simpa [hp, Phase.Fits] using hk
        next => exact fits_consider _ op
      | step =>
        simp only [react, hp, Reaction.next_andThen]
        split
        next hk => simpa [hp, Phase.Fits] using hk
        next => exact fits_consider _ op
  | gone =>
    cases offer <;> simp [react, hp, Phase.Fits]

end Sequencer

structure Sequencer.Clear {μ : Type} (s : Sequencer μ) : Prop where
  active : s.run.active = true
  going : s.run.paused = false
  free : s.run.debug = true → s.run.armed = false
  unsuspended : s.phase.isSuspended = false

/-- What a sequencer can do by itself, with the instruction in hand before and after. -/
inductive Move {μ : Type} [Bus μ] (s : Sequencer μ) :
    Option Opcode → Reaction μ → Option Opcode → Prop where
  | drop (r : Request) : s.phase = .gone → Move s none (s.react (some r)) none
  | settle {hand : Option Opcode} :
      (s.run.active = true → hand = none ∧ s.phase.isSuspended = false) →
      Move s hand s.settle none
  | decode {op : Opcode} : s.phase = .gather → s.run.active = true →
      s.processor.decode.1 = .ok op →
      Move s none (s.check.andThen (·.saying (.decoded op))) (some op)
  | lock {f : Fault} : s.phase = .gather → s.run.active = true →
      s.processor.decode.1 = .error f →
      Move s none (s.check.andThen (·.lock f)) none
  | pause {op : Opcode} : s.run.active = true → s.run.paused = true →
      Move s (some op) ⟨{ s with phase := .held op .pause }, []⟩ (some op)
  | suspend {op : Opcode} : s.run.active = true → s.run.paused = false →
      s.run.debug = true → s.run.armed = true →
      Move s (some op) { s with phase := .held op .step }.announceRun (some op)
  | release {op : Opcode} : s.phase = .held op .step →
      (s.run.active = true → s.run.armed = false) →
      Move s (some op) { s with phase := .gather }.announceRun (some op)
  | commit {op : Opcode} : s.Clear → Move s (some op) (s.commit op) none

inductive Moves {μ : Type} [Bus μ] (s : Sequencer μ) (hand : Option Opcode) :
    Reaction μ → Option Opcode → Prop where
  | refl : Moves s hand ⟨s, []⟩ hand
  | tail {r t : Reaction μ} {mid last : Option Opcode} :
      Moves s hand r mid → Move r.next mid t last → Moves s hand (r.andThen fun _ => t) last

theorem Move.quiet_or_commit {μ : Type} [Bus μ] {s : Sequencer μ} {hand last : Option Opcode}
    {r : Reaction μ} (h : Move s hand r last) :
    Quiet r.events ∨ ∃ op, hand = some op ∧ last = none ∧ r = s.commit op ∧ s.Clear := by
  cases h with
  | drop r hp =>
    refine .inl ?_
    cases r <;> simp [Sequencer.react, hp]
  | commit hc => exact .inr ⟨_, rfl, rfl, rfl, hc⟩
  | _ => exact .inl (by simp)

namespace Moves

variable {μ : Type} [Bus μ] {s : Sequencer μ}

theorem single {hand last : Option Opcode} {r : Reaction μ} (h : Move s hand r last) :
    Moves s hand r last := by
  simpa [Reaction.andThen] using Moves.tail .refl h

theorem trans {hand mid last : Option Opcode} {r t : Reaction μ} (h : Moves s hand r mid)
    (k : Moves r.next mid t last) : Moves s hand (r.andThen fun _ => t) last := by
  induction k with
  | refl => simpa [Reaction.andThen] using h
  | tail _ hm ih => simpa [Reaction.andThen] using ih.tail hm

theorem quiet_or_commit {hand last : Option Opcode} {r : Reaction μ} (h : Moves s hand r last) :
    Quiet r.events ∨ ∃ (before after : Reaction μ) (op : Opcode), Moves s hand before (some op) ∧
      before.next.Clear ∧ r = (before.andThen (·.commit op)).andThen fun _ => after := by
  induction h with
  | refl => exact .inl quiet_nil
  | @tail r t mid last hr hm ih =>
    rcases ih with hq | ⟨before, after, op, hb, hc, rfl⟩
    · rcases hm.quiet_or_commit with ht | ⟨op, rfl, rfl, rfl, hc⟩
      · exact .inl (by simp [hq, ht])
      · exact .inr ⟨r, ⟨(r.next.commit op).next, []⟩, op, hr, hc, by simp [Reaction.andThen]⟩
    · exact .inr ⟨before, after.andThen fun _ => t, op, hb, hc, by simp [Reaction.andThen]⟩

end Moves

namespace Sequencer

variable {μ : Type} [Bus μ]

theorem moves_consider (s : Sequencer μ) (op : Opcode) (h : s.phase.isSuspended = false) :
    Moves s (some op) (s.consider op) (s.consider op).next.phase.held? := by
  by_cases ha : s.run.active = true
  · by_cases hp : s.run.paused = true
    · simpa [consider, ha, hp, Phase.held?] using Moves.single (.pause ha hp)
    · have hp : s.run.paused = false := by simpa using hp
      by_cases hs : s.run.debug = true ∧ s.run.armed = true
      · simpa [consider, ha, hp, hs, Phase.held?] using Moves.single (.suspend ha hp hs.1 hs.2)
      · have hc : s.run.debug = true → s.run.armed = false := by simpa using hs
        have hm : Moves s (some op) (s.commit op) none := .single (.commit ⟨ha, hp, hc, h⟩)
        have he : s.consider op = s.commit op := by simp [consider, ha, hp, hs]
        rw [he, (phase_commit s op).2]
        exact hm
  · have ha : s.run.active = false := by simpa using ha
    have hm : Moves s (some op) s.settle none := .single (.settle (by simp [ha]))
    simpa [consider, ha] using hm

theorem moves_begin (s : Sequencer μ) (hp : s.phase = .gather) (ha : s.run.active = true) :
    Moves s none s.begin s.begin.next.phase.held? := by
  rw [begin_eq]
  cases hd : s.processor.decode.1 with
  | error f =>
    have hm := Moves.single (.lock hp ha hd)
    simpa [(phase_lock s.check.next f).2] using hm
  | ok op =>
    have hm := Moves.single (.decode hp ha hd)
    exact hm.trans (moves_consider _ op (by simp [check, hp, Phase.isSuspended]))

theorem moves_react (s : Sequencer μ) (offer : Option Request)
    (h : offer = none ∨ s.phase = .gone) :
    Moves s s.phase.held? (s.react offer) (s.react offer).next.phase.held? := by
  cases hp : s.phase with
  | rest =>
    have ho : offer = none := by simpa [hp] using h
    subst ho
    simpa [react, hp, Phase.held?] using Moves.refl
  | gather =>
    have ho : offer = none := by simpa [hp] using h
    subst ho
    by_cases ha : s.run.active = true
    · simpa [react, hp, ha, Phase.held?] using s.moves_begin hp ha
    · have hm : Moves s none s.settle none := .single (.settle (by simp [ha]))
      have hr : s.react none = s.settle := by simp [react, hp, ha]
      rw [hr, held?_settle]
      exact hm
  | held op hold =>
    have ho : offer = none := by simpa [hp] using h
    subst ho
    simpa [react, hp, Phase.held?] using Moves.refl
  | gone =>
    cases offer with
    | none => simpa [react, hp, Phase.held?] using Moves.refl
    | some r =>
      have hm := Moves.single (.drop r hp)
      have hn : (s.react (some r)).next.phase.held? = none := by simp [react, hp, Phase.held?]
      rw [hn]
      exact hm

theorem moves_take (s : Sequencer μ) (r : Request) (h : s.phase ≠ .gone) :
    ∃ t : Reaction μ, Moves (s.take r).next s.phase.held? t t.next.phase.held? ∧
      s.react (some r) = (s.take r).andThen fun _ => t := by
  cases hp : s.phase with
  | rest =>
    have hs : (s.take r).next.phase.isSuspended = false := by simp [hp, Phase.isSuspended]
    have hm : Moves (s.take r).next none (s.take r).next.settle none :=
      .single (.settle fun _ => ⟨rfl, hs⟩)
    refine ⟨(s.take r).next.settle, ?_, ?_⟩
    · rw [held?_settle]
      exact hm
    · simp only [react, hp]
      rfl
  | gather =>
    refine ⟨⟨(s.take r).next, []⟩, by simpa [Phase.held?, hp] using Moves.refl, ?_⟩
    simp [react, hp, Reaction.andThen]
  | held op hold =>
    cases hold with
    | pause =>
      by_cases hk : ((s.take r).next.run.active && (s.take r).next.run.paused) = true
      · refine ⟨⟨(s.take r).next, []⟩, by simpa [Phase.held?, hp] using Moves.refl, ?_⟩
        simp only [react, hp, Reaction.andThen, hk, if_true]
      · refine ⟨(s.take r).next.consider op, moves_consider _ op ?_, ?_⟩
        · simp [hp, Phase.isSuspended]
        · simp only [react, hp, Reaction.andThen, hk]
          rfl
    | step =>
      by_cases hk : ((s.take r).next.run.active && (s.take r).next.run.armed) = true
      · refine ⟨⟨(s.take r).next, []⟩, by simpa [Phase.held?, hp] using Moves.refl, ?_⟩
        simp only [react, hp, Reaction.andThen, hk, if_true]
      · -- let go, the instruction is considered once more, for the run may have been paused meanwhile
        have hr : (s.take r).next.run.active = true → (s.take r).next.run.armed = false := by
          simpa using hk
        have hh : (s.take r).next.phase = .held op .step := by rw [phase_take, hp]
        have hm : Moves (s.take r).next (some op)
            { (s.take r).next with phase := .gather }.announceRun (some op) :=
          .single (.release hh hr)
        refine ⟨_, hm.trans (moves_consider _ op ?_), ?_⟩
        · simp [Phase.isSuspended]
        · simp only [react, hp, Reaction.andThen, hk]
          rfl
  | gone => exact absurd hp h

end Sequencer

/-- What every move keeps is kept by a reaction, once the request is taken. -/
theorem Moves.keeps {μ : Type} [Bus μ] {J : List Event → Sequencer μ → Option Opcode → Prop}
    (move : ∀ told s hand r last, J told s hand → Move s hand r last →
      J (told ++ r.events) r.next last)
    {told : List Event} {s : Sequencer μ} {hand last : Option Opcode} {r : Reaction μ}
    (h : J told s hand) (hm : Moves s hand r last) : J (told ++ r.events) r.next last := by
  induction hm with
  | refl => simpa using h
  | tail _ hm ih => simpa using move _ _ _ _ _ ih hm

theorem Sequencer.react_keeps {μ : Type} [Bus μ]
    {J : List Event → Sequencer μ → Option Opcode → Prop}
    (move : ∀ told s hand r last, J told s hand → Move s hand r last →
      J (told ++ r.events) r.next last)
    {told : List Event} {s : Sequencer μ} {offer : Option Request}
    (start : offer = none ∨ s.phase = .gone → J told s s.phase.held?)
    (take : ∀ r, offer = some r → s.phase ≠ .gone →
      J (told ++ (s.take r).events) (s.take r).next s.phase.held?) :
    J (told ++ (s.react offer).events) (s.react offer).next
      (s.react offer).next.phase.held? := by
  by_cases h : offer = none ∨ s.phase = .gone
  · exact (s.moves_react offer h).keeps move (start h)
  · obtain ⟨hn, hg⟩ := not_or.1 h
    obtain ⟨r, rfl⟩ := Option.ne_none_iff_exists'.1 hn
    obtain ⟨t, ht, he⟩ := s.moves_take r hg
    have hj := ht.keeps move (take r rfl hg)
    rw [he]
    simpa [List.append_assoc] using hj

end Sm83
