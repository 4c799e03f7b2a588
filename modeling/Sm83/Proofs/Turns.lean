import Sm83.Proofs.Operations
import Sm83.Sequencer.Loop

/-!
The turns of a loop, counted. A loop that has to wait stays as it is, whatever the number of turns.
-/

set_option autoImplicit false

namespace Sm83

namespace Event

def commit? : Event → Option Registers
  | .committed regs => some regs
  | .note _ | .alert _ | .entered _ | .answer _ _ => none

def commits (es : List Event) : List Registers := es.filterMap commit?

@[simp] theorem commits_append (es fs : List Event) : commits (es ++ fs) = commits es ++ commits fs := by
  simp [commits]

theorem commits_of_quiet {es : List Event} (h : Quiet es) : commits es = [] := by
  unfold commits
  rw [List.filterMap_eq_nil_iff]
  intro e he
  cases e with
  | committed regs => exact absurd he (h regs)
  | _ => rfl

end Event

theorem Sequencer.commits_commit {μ : Type} [Bus μ] (s : Sequencer μ) (op : Opcode) :
    Event.commits (s.commit op).events = [(s.processor.execute op).2.regs] := by
  have hs : Quiet (if s.run.debug = true then [.note (.showing s.processor.regs)] else []) := by
    split <;> simp
  rw [commit_eq]
  simp only [Reaction.events_andThen, Event.commits_append, retire, Event.commits_of_quiet hs,
    Event.commits_of_quiet (quiet_notes _), Event.commits_of_quiet (quiet_finish _ _),
    Event.commits_of_quiet (quiet_settle _)]
  rfl

namespace Loop

variable {μ : Type} [Bus μ]

def turns (l : Loop μ) : Nat → Loop μ × List Event
  | 0 => (l, [])
  | n + 1 => ((l.turns n).1.turn.1, (l.turns n).2 ++ (l.turns n).1.turn.2)

theorem turns_succ (l : Loop μ) (n : Nat) :
    l.turns (n + 1) = ((l.turns n).1.turn.1, (l.turns n).2 ++ (l.turns n).1.turn.2) := rfl

@[simp] theorem turns_one (l : Loop μ) : l.turns 1 = l.turn := by simp [turns]

theorem turns_add (l : Loop μ) (m n : Nat) : l.turns (m + n) =
    (((l.turns m).1.turns n).1, (l.turns m).2 ++ ((l.turns m).1.turns n).2) := by
  induction n with
  | zero => simp [turns]
  | succ n ih =>
    rw [← Nat.add_assoc, turns_succ, ih, turns_succ, List.append_assoc]

theorem turn_eq {l : Loop μ} (h : l.sequencer.phase ≠ .gone) :
    l.turn = (⟨(l.sequencer.react l.inbox.head?).next, l.inbox.tail⟩,
      (l.sequencer.react l.inbox.head?).events) := by
  have hg : l.isGone = false := by
    cases hp : l.sequencer.phase with
    | gone => exact absurd hp h
    | _ => simp [isGone, hp]
  simp [turn, hg]

theorem turn_of_blocked {l : Loop μ} (hi : l.inbox = []) (hb : l.isBlocked = true) : l.turn = (l, []) := by
  obtain ⟨s, inbox⟩ := l
  subst hi
  cases hp : s.phase with
  | rest => simp [turn, isGone, hp, Sequencer.react]
  | gather => simp [isBlocked, hp] at hb
  | held op hold => cases hold <;> simp [turn, isGone, hp, Sequencer.react]
  | gone => simp [turn, isGone, hp]

theorem turns_of_blocked {l : Loop μ} {n : Nat} (hi : (l.turns n).1.inbox = [])
    (hb : (l.turns n).1.isBlocked = true) (i : Nat) : l.turns (n + i) = l.turns n := by
  induction i with
  | zero => rfl
  | succ i ih =>
    rw [← Nat.add_assoc, turns_succ, ih, turn_of_blocked hi hb, List.append_nil]

end Loop

end Sm83
