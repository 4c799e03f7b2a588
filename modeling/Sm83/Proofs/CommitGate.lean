import Sm83.Proofs.Watch

/-!
Commits are gated by the run and by its pause. A commit finds the sequencer running; a pause holds until it is
resumed or the run is over, and what ends a run holds until another start is accepted.
-/

set_option autoImplicit false

namespace Sm83

def Event.endsRun : Event → Bool
  | .note (.taken .stop) | .note (.taken .reset) | .note (.taken .shutdown) => true
  | .note (.stoppedAt _) | .note (.faulted _ _) => true
  | _ => false

namespace Watch

variable {w : Watch} {e : Event} {es : List Event}

def Restarts (w : Watch) (es : List Event) : Prop :=
  ∃ before debug after, es = before ++ .note (.taken (.start debug)) :: after ∧
    (w.follow before).activity = .idle ∧ (w.follow before).mode ≠ .halted

theorem idle_of_endsRun (h : e.endsRun = true) :
    (w.see e).activity = .idle ∧ (w.see e).hand = none := by
  cases e with
  | note n =>
    cases n with
    | taken r => cases r <;> simp_all [Event.endsRun, see, hear, rest]
    | _ => simp_all [Event.endsRun, see, rest]
  | _ => simp_all [Event.endsRun]

theorem endsRun_of_idle (h : w.activity ≠ .idle) (hi : (w.see e).activity = .idle) :
    e.endsRun = true := by
  cases e with
  | note n =>
    cases n with
    | taken r =>
      cases r with
      | adjust a => cases a <;> simp_all [see, hear]
      | _ => simp_all [Event.endsRun, see, hear]
    | _ => simp_all [Event.endsRun, see]
  | _ => simp_all [see]

theorem start_of_not_idle (h : w.activity = .idle) (hg : (w.see e).activity ≠ .idle) :
    ∃ debug, e = .note (.taken (.start debug)) ∧ w.mode ≠ .halted := by
  cases e with
  | note n =>
    cases n with
    | taken r =>
      cases r with
      | start debug =>
        refine ⟨debug, rfl, fun hm => hg ?_⟩
        simp [see, hear, h, hm]
      | adjust a => cases a <;> simp_all [see, hear]
      | _ => simp_all [see, hear, rest]
    | _ => simp_all [see, rest]
  | _ => simp_all [see]

theorem resume_of_going (h : w.activity = .paused) (hg : (w.see e).activity = .going) :
    e = .note (.taken (.adjust .resume)) := by
  cases e with
  | note n =>
    cases n with
    | taken r =>
      cases r with
      | adjust a => cases a <;> simp_all [see, hear]
      | _ => simp_all [see, hear, rest]
    | _ => simp_all [see, rest]
  | _ => simp_all [see]

theorem Restarts.cons (h : (w.see e).Restarts es) : w.Restarts (e :: es) := by
  obtain ⟨before, debug, after, he, ha, hm⟩ := h
  exact ⟨e :: before, debug, after, by rw [he]; rfl, ha, hm⟩

theorem restarts_of_idle (h : w.activity = .idle) (hg : (w.follow es).activity ≠ .idle) :
    w.Restarts es := by
  induction es generalizing w with
  | nil => exact absurd h hg
  | cons e es ih =>
    by_cases hi : (w.see e).activity = .idle
    · exact (ih hi hg).cons
    · obtain ⟨debug, he, hm⟩ := start_of_not_idle h hi
      exact ⟨[], debug, es, by rw [he]; rfl, h, hm⟩

/-- The events resume the run, or end it and start another. -/
def Resumes (w : Watch) (es : List Event) : Prop :=
  .note (.taken (.adjust .resume)) ∈ es ∨
    ∃ before e after, es = before ++ e :: after ∧ e.endsRun = true ∧
      (w.follow (before ++ [e])).Restarts after

theorem Resumes.cons (h : (w.see e).Resumes es) : w.Resumes (e :: es) := by
  cases h with
  | inl hr => exact .inl (List.mem_cons_of_mem e hr)
  | inr hs =>
    obtain ⟨before, x, after, he, hx, ha⟩ := hs
    exact .inr ⟨e :: before, x, after, by rw [he]; rfl, hx, ha⟩

theorem resumes_of_paused (h : w.activity = .paused) (hg : (w.follow es).activity = .going) :
    w.Resumes es := by
  induction es generalizing w with
  | nil => simp_all
  | cons e es ih =>
    cases ha : (w.see e).activity with
    | paused => exact (ih ha hg).cons
    | going =>
      rw [resume_of_going h ha]
      exact .inl (by simp)
    | idle =>
      have he := endsRun_of_idle (by simp [h]) ha
      have hs : (w.see e).Restarts es := restarts_of_idle ha (by rw [follow_cons] at hg; simp [hg])
      exact .inr ⟨[], e, es, rfl, he, hs⟩

theorem hand_see {op : Opcode} (h : (w.see e).hand = some op) :
    e = .note (.decoded op) ∨ w.hand = some op := by
  cases e with
  | note n =>
    cases n with
    | taken r =>
      cases r with
      | start debug =>
        simp only [see, hear] at h
        split at h <;> exact .inr h
      | adjust a =>
        cases a with
        | pause | resume =>
          simp only [see, hear] at h
          split at h <;> exact .inr h
        | _ => exact .inr h
      | _ => simp_all [see, hear, rest]
    | _ => simp_all [see, rest]
  | _ => simp_all [see]

theorem decoded_of_hand {op : Opcode} (h : w.hand ≠ some op) (hh : (w.follow es).hand = some op) :
    .note (.decoded op) ∈ es := by
  induction es generalizing w with
  | nil => exact absurd hh h
  | cons e es ih =>
    by_cases he : (w.see e).hand = some op
    · have hd : e = .note (.decoded op) := (hand_see he).resolve_right h
      simp [hd]
    · exact List.mem_cons_of_mem e (ih he hh)

end Watch

/-- A commit finds its run going. Between a pause of a run and a commit the run was resumed, or was over and
started again; between the end of a run and a commit there is an accepted start, and the instruction committed
was decoded anew. -/
structure Gated (told : List Event) : Prop where
  running : ∀ before regs after, told = before ++ .committed regs :: after →
    (Watch.of before).mode = .running ∧ (Watch.of before).activity = .going
  resumed : ∀ before between regs after,
    told = before ++ .note (.taken (.adjust .pause)) :: (between ++ .committed regs :: after) →
    (Watch.of before).activity ≠ .idle →
    (Watch.of (before ++ [.note (.taken (.adjust .pause))])).Resumes between
  restarted : ∀ before e between regs after,
    told = before ++ e :: (between ++ .committed regs :: after) → e.endsRun = true →
    (Watch.of (before ++ [e])).Restarts between ∧ ∃ op, .note (.decoded op) ∈ between

theorem Watch.Allows.gated {told : List Event} (h : Watch.Allows {} told) : Gated told := by
  have ready : ∀ before between regs after, told = before ++ (between ++ .committed regs :: after) →
      ((Watch.of before).follow between).Ready := by
    intro before between regs after ht
    rw [ht, ← List.append_assoc] at h
    rw [← Watch.of_append]
    exact h.ready
  refine ⟨?_, ?_, ?_⟩
  · intro before regs after ht
    have hr := ready before [] regs after ht
    exact ⟨hr.mode, hr.activity⟩
  · intro before between regs after ht ha
    have hr := ready (before ++ [.note (.taken (.adjust .pause))]) between regs after (by simp [ht])
    have hp : (Watch.of (before ++ [.note (.taken (.adjust .pause))])).activity = .paused := by
      simp [Watch.of_append, Watch.see, Watch.hear, ha]
    exact Watch.resumes_of_paused hp hr.activity
  · intro before e between regs after ht he
    have hr := ready (before ++ [e]) between regs after (by simp [ht])
    have hi : (Watch.of (before ++ [e])).activity = .idle ∧ (Watch.of (before ++ [e])).hand = none := by
      rw [Watch.of_append]
      exact Watch.idle_of_endsRun he
    obtain ⟨op, hop⟩ := Option.ne_none_iff_exists'.1 hr.hand
    refine ⟨Watch.restarts_of_idle hi.1 (by simp [hr.activity]), op, ?_⟩
    exact Watch.decoded_of_hand (by simp [hi.2]) hop

namespace Sequencer

variable {μ : Type} [Bus μ]

theorem gives_up (s : Sequencer μ) {op : Opcode} (h : s.phase.held? = some op) {r : Request}
    (hr : r = .stop ∨ r = .reset) :
    (s.react (some r)).next.phase.held? = none ∧ Quiet (s.react (some r)).events := by
  have ha : (s.take r).next.run.active = false := by
    rw [next_take]
    rcases hr with rfl | rfl
    · by_cases hx : s.run.active = true <;> simp [obey, hx, next_announce]
    · simp [obey, next_announce]
  cases hp : s.phase with
  | held x hold =>
    cases hold with
    | pause => simp [react, hp, ha, consider_of_inactive]
    | step => simp [react, hp, ha, consider_of_inactive]
  | _ => simp [hp, Phase.held?] at h

theorem quiet_or_commit {w : Watch} {s : Sequencer μ} (h : w.Agrees s s.phase.held?)
    (hf : s.phase.Fits s.run) (offer : Option Request) :
    Quiet (s.react offer).events ∨ ∃ (before after : Reaction μ) (op : Opcode),
      s.react offer = (before.andThen (·.commit op)).andThen (fun _ => after) ∧
        before.next.Clear ∧ (w.follow before.events).Agrees before.next (some op) := by
  by_cases ho : offer = none ∨ s.phase = .gone
  · have hm := s.moves_react offer ho
    rcases hm.quiet_or_commit with hq | ⟨before, after, op, hb, hc, he⟩
    · exact .inl hq
    · exact .inr ⟨before, after, op, he, hc, h.moves hb⟩
  · obtain ⟨hn, hg⟩ := not_or.1 ho
    obtain ⟨r, rfl⟩ := Option.ne_none_iff_exists'.1 hn
    obtain ⟨t, hm, he⟩ := s.moves_take r hg
    have ht := h.take hf.held?_eq_none r
    rw [he]
    rcases hm.quiet_or_commit with hq | ⟨before, after, op, hb, hc, rfl⟩
    · exact .inl (by simp [hq])
    · refine .inr ⟨(s.take r).andThen fun _ => before, after, op, ?_, hc, ?_⟩
      · simp [Reaction.andThen]
      · simpa using ht.moves hb

end Sequencer

namespace Course

/-- Whatever is offered, and whenever: commits are gated in all that is told, of which the watch knows the mode
and the run of the sequencer; a commit is made by a sequencer that is running, with its run neither over nor
paused; and a stop or a reset makes it give up the instruction it holds back. -/
theorem commits_gated {μ : Type} [Bus μ] (p : Processor μ) (offers : List (Option Request)) :
    let c := (ofProcessor p).follow offers
    Gated c.told ∧
    ((Watch.of c.told).mode = c.now.mode ∧ (Watch.of c.told).activity = c.now.activity) ∧
    (∀ o, Quiet (c.now.react o).events ∨ ∃ (before after : Reaction μ) (op : Opcode),
      c.now.react o = (before.andThen (·.commit op)).andThen (fun _ => after) ∧
        before.next.mode = .running ∧ before.next.run.active = true ∧
        before.next.run.paused = false) ∧
    ∀ op r, c.now.phase.held? = some op → r = .stop ∨ r = .reset →
      (c.now.react (some r)).next.phase.held? = none ∧ Quiet (c.now.react (some r)).events := by
  intro c
  have hw := watched p offers
  refine ⟨hw.2.gated, ⟨hw.1.mode, hw.1.activity⟩, ?_, ?_⟩
  · intro o
    rcases Sequencer.quiet_or_commit hw.1 (fits_follow p offers) o with hq | ⟨b, a, op, he, hc, hb⟩
    · exact .inl hq
    · have hm : b.next.mode = .running := by rw [← hb.mode, (hb.ready hc).mode]
      exact .inr ⟨b, a, op, he, hm, hc.active, hc.going⟩
  · intro op r hh hr
    exact c.now.gives_up hh hr

end Course

end Sm83
