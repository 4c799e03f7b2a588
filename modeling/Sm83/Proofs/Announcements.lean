import Sm83.Proofs.Operations

/-!
Which modes are announced by what. The flags of a run amount to stepping only where an instruction waits for a step,
and never to the modes that stand at the end of a run.
-/

set_option autoImplicit false

namespace Sm83

namespace Sequencer

variable {μ : Type} {s : Sequencer μ} {m : Mode}

theorem activeMode_ne_halted (s : Sequencer μ) : s.activeMode ≠ .halted := by
  unfold activeMode
  split
  · simp
  · split <;> simp

theorem isSuspended_of_activeMode (h : s.activeMode = .stepping) :
    s.phase.isSuspended = true ∧ s.run.armed = true := by
  unfold activeMode at h
  split at h
  · cases h
  · split at h
    · simp_all
    · cases h

theorem entered_announce {n : Mode} (h : .entered m ∈ (s.announce n).events) : m = n := by
  rcases mem_announce h with h | h
  · cases h
  · exact Event.entered.inj h

theorem entered_announceRun (h : .entered m ∈ s.announceRun.events) : m = s.activeMode := by
  rcases mem_announceRun h with h | h
  · cases h
  · exact Event.entered.inj h

theorem not_entered_settle : .entered m ∉ s.settle.events := by
  intro h
  cases mem_settle h

theorem entered_obey {r : Request} (h : .entered .stepping ∈ (s.obey r).events) : s.phase.isSuspended = true := by
  have ho := s.obeyed r
  generalize s.obey r = t at h ho
  cases ho with
  | heard run breakpoints leaving es hr he => cases he _ h
  | run run hr => exact (isSuspended_of_activeMode (entered_announceRun h).symm).1
  | stop => cases entered_announce h
  | reset => cases entered_announce h

theorem entered_take {r : Request} (h : .entered .stepping ∈ (s.take r).events) : s.phase.isSuspended = true := by
  rw [events_take, List.mem_cons] at h
  exact entered_obey (h.resolve_left (by simp))

theorem entered_finish {r : Completion} (h : .entered m ∈ (s.finish r).events) : m = .stopped := by
  rcases mem_finish h with h | h | h
  · cases h
  · cases h
  · exact Event.entered.inj h

theorem entered_lock {f : Fault} (h : .entered m ∈ (s.lock f).events) : m = .halted := by
  rcases mem_lock h with h | h | h | h | h
  case inr.inr.inr.inl => exact Event.entered.inj h
  all_goals cases h

theorem not_entered_notes {r : Completion} : .entered m ∉ notes r := by
  intro h
  rcases mem_notes h with ⟨w, hw⟩ | ⟨n, hn⟩
  · cases hw
  · cases hn

variable [Bus μ]

theorem not_entered_retire {op : Opcode} : .entered m ∉ (s.retire op).events := by
  intro h
  rcases mem_retire h with h | h | h
  · cases h
  · exact not_entered_notes h
  · cases h

theorem entered_commit {op : Opcode} (h : .entered m ∈ (s.commit op).events) : m = .stopped := by
  rw [commit_eq] at h
  simp only [Reaction.events_andThen, Reaction.next_andThen, List.mem_append] at h
  rcases h with (h | h) | h
  · exact absurd h not_entered_retire
  · exact entered_finish h
  · exact absurd h not_entered_settle

theorem entered_consider {op : Opcode} (h : .entered .stepping ∈ (s.consider op).events) : s.run.armed = true := by
  unfold consider at h
  split at h
  · exact absurd h not_entered_settle
  · split at h
    · cases h
    · split at h
      next hd => exact (isSuspended_of_activeMode (entered_announceRun h).symm).2
      next => cases entered_commit h

theorem not_entered_check : .entered m ∉ s.check.events := by
  intro h
  cases mem_check h

end Sequencer

end Sm83
