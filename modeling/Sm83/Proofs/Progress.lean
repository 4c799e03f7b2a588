import Sm83.Proofs.Breakpoints
import Sm83.Proofs.Departure
import Sm83.Proofs.Publication

/-!
A sequencer gets on with its work. It takes what is asked of it one request after the other, and once an
instruction is begun it comes to an end with it: commits it, gives it up with its run, or waits for a request
that is not there yet. No instruction is made to wait for a step twice.
-/

set_option autoImplicit false

namespace Sm83

namespace Event

def request? : Event → Option Request
  | .note (.taken r) => some r
  | .note _ | .committed _ | .alert _ | .entered _ | .answer _ _ => none

def requests (es : List Event) : List Request := es.filterMap request?

@[simp] theorem requests_append (es fs : List Event) : requests (es ++ fs) = requests es ++ requests fs := by
  simp [requests]

theorem requests_eq_nil {es : List Event} (ht : ∀ r, .note (.taken r) ∉ es) : requests es = [] := by
  refine List.filterMap_eq_nil_iff.2 fun e he => ?_
  cases e with
  | note n =>
    cases n with
    | taken r => exact absurd he (ht r)
    | _ => rfl
  | _ => rfl

end Event

namespace Sequencer

variable {μ : Type} {s : Sequencer μ}

theorem requests_take (s : Sequencer μ) (r : Request) : Event.requests (s.take r).events = [r] := by
  have hr : Event.requests (s.obey r).events = [] := Event.requests_eq_nil fun _ => not_taken_obey
  simpa [events_take, Event.requests, Event.request?] using hr

variable [Bus μ]

theorem not_taken_moves {hand last : Option Opcode} {t : Reaction μ} (h : Moves s hand t last) (x : Request) :
    .note (.taken x) ∉ t.events := by
  induction h with
  | refl => simp
  | tail _ hm ih => simp [ih, not_taken_move hm]

theorem requests_react (h : s.phase ≠ .gone) (o : Option Request) :
    Event.requests (s.react o).events = o.toList := by
  cases o with
  | none =>
    exact Event.requests_eq_nil (not_taken_moves (s.moves_react none (.inl rfl)))
  | some r =>
    obtain ⟨t, ht, hr⟩ := s.moves_take r h
    rw [hr, Reaction.events_andThen, Event.requests_append, requests_take,
      Event.requests_eq_nil (not_taken_moves ht)]
    rfl

/-- In its reaction the sequencer makes an instruction wait for a step: one that did not wait for it before,
or that the request has let go. -/
def suspends (s : Sequencer μ) (o : Option Request) : Bool :=
  (s.react o).next.phase.isSuspended &&
    (!s.phase.isSuspended || o.any fun r => !((s.take r).next.run.active && (s.take r).next.run.armed))

/-- How often an instruction is made to wait for a step while the offers come, as long as it is in hand. -/
def suspensions (s : Sequencer μ) : List (Option Request) → Nat
  | [] => 0
  | o :: os =>
    (s.suspends o).toNat +
      match (s.react o).next.phase.held? with
      | none => 0
      | some _ => (s.react o).next.suspensions os

variable {o : Option Request} {op : Opcode}

theorem suspensions_of_free (h : (s.react o).next.phase.held? = none) (os : List (Option Request)) :
    s.suspensions (o :: os) = 0 := by
  have hs : (s.react o).next.phase.isSuspended = false := by
    cases hp : (s.react o).next.phase with
    | held op hold => simp [hp, Phase.held?] at h
    | _ => rfl
  simp [suspensions, suspends, hs, h]

theorem suspensions_of_loose (h : s.Loose op) (os : List (Option Request)) : s.suspensions os = 0 := by
  induction os generalizing s with
  | nil => rfl
  | cons o os ih =>
    rcases (loose_react h o).2 with hl | hf
    · simp [suspensions, suspends, hl.phase, Phase.isSuspended, Phase.held?, ih hl]
    · exact suspensions_of_free hf os

theorem loose_or_free (h : s.run.active = true → s.run.armed = false) (op : Opcode) :
    (s.consider op).next.Loose op ∨ (s.consider op).next.phase.held? = none := by
  cases ha : s.run.active with
  | true => exact (loose_consider (h ha) op).2
  | false =>
    rw [consider_of_inactive ha]
    exact .inr s.held?_settle

theorem suspensions_of_suspended (h : s.phase = .held op .step) (os : List (Option Request)) :
    s.suspensions os = 0 := by
  induction os generalizing s with
  | nil => rfl
  | cons o os ih =>
    cases o with
    | none =>
      have hr : s.react none = ⟨s, []⟩ := react_none_of_held (by rw [h]; rfl)
      simp [suspensions, suspends, hr, h, Phase.isSuspended, Phase.held?, ih h]
    | some r =>
      by_cases hk : ((s.take r).next.run.active && (s.take r).next.run.armed) = true
      · have hr : (s.react (some r)).next = (s.take r).next := by
          simp only [react, h, Reaction.next_andThen, hk, if_true]
        have hp : (s.take r).next.suspensions os = 0 := ih (by rw [phase_take, h])
        have hs : s.suspends (some r) = false := by
          simp only [Bool.and_eq_true] at hk
          simp [suspends, hk, h, Phase.isSuspended]
        simp [suspensions, hs, hr, h, Phase.held?, hp]
      · -- let go, it is not armed any more, and no request arms a run
        have hr : (s.react (some r)).next =
            ({ (s.take r).next with phase := .gather }.announceRun.next.consider op).next := by
          simp only [react, h, Reaction.next_andThen, hk]
          rfl
        have hu : (s.take r).next.run.active = true → (s.take r).next.run.armed = false := by simpa using hk
        have hn := loose_or_free (s := { (s.take r).next with phase := .gather }.announceRun.next)
          (by simpa using hu) op
        rw [← hr] at hn
        rcases hn with hl | hf
        · have hs : s.suspends (some r) = false := by simp [suspends, hl.phase, Phase.isSuspended]
          simp [suspensions, hs, hl.phase, Phase.held?, suspensions_of_loose hl]
        · exact suspensions_of_free hf os

theorem suspensions_le_one (s : Sequencer μ) (os : List (Option Request)) : s.suspensions os ≤ 1 := by
  induction os generalizing s with
  | nil => simp [suspensions]
  | cons o os ih =>
    cases hf : (s.react o).next.phase.held? with
    | none => simp [suspensions_of_free hf]
    | some op =>
      cases hs : s.suspends o with
      | false => simpa [suspensions, hs, hf] using ih _
      | true =>
        have hp : (s.react o).next.phase.isSuspended = true := by
          simp only [suspends, Bool.and_eq_true] at hs
          exact hs.1
        obtain ⟨x, hx⟩ : ∃ x, (s.react o).next.phase = .held x .step := by
          cases hq : (s.react o).next.phase with
          | held x hold =>
            cases hold with
            | pause => simp [hq, Phase.isSuspended] at hp
            | step => exact ⟨x, rfl⟩
          | _ => simp [hq, Phase.isSuspended] at hp
        simp [suspensions, hs, hx, Phase.held?, suspensions_of_suspended hx]

end Sequencer

/-- What can become of an instruction in a reaction: it is committed, given up with its run, or held back. -/
inductive Reaction.Treats {μ : Type} (r : Reaction μ) (op : Opcode) : Prop where
  | commits {regs : Registers} : Event.commits r.events = [regs] → r.next.phase.held? = none → Treats r op
  | ends : Quiet r.events → r.next.run.active = false → r.next.phase = .rest ∨ r.next.phase = .gone →
      Treats r op
  | holds : Quiet r.events → r.next.phase.held? = some op → Treats r op

theorem Reaction.Treats.after {μ : Type} {r : Reaction μ} {f : Sequencer μ → Reaction μ} {op : Opcode}
    (hq : Quiet r.events) (h : (f r.next).Treats op) : (r.andThen f).Treats op := by
  cases h with
  | @commits regs he hp =>
    refine .commits (?_ : Event.commits _ = [regs]) hp
    rw [events_andThen, Event.commits_append, Event.commits_of_quiet hq, he, List.nil_append]
  | ends he ha hp => exact .ends (by simp [hq, he]) ha hp
  | holds he hp => exact .holds (by simp [hq, he]) hp

namespace Sequencer

variable {μ : Type} {s : Sequencer μ}

theorem treats_settle (h : s.run.active = false) (op : Opcode) : s.settle.Treats op := by
  refine .ends s.quiet_settle ?_ ?_
  · rw [next_settle]
    exact h
  · rw [next_settle]
    cases hl : s.leaving with
    | true => exact .inr (by simp [between, hl])
    | false => exact .inl (by simp [between, hl, h])

variable [Bus μ]

theorem treats_consider (s : Sequencer μ) (op : Opcode) : (s.consider op).Treats op := by
  unfold consider
  split
  next ha => exact treats_settle (by simpa using ha) op
  next =>
    split
    · exact .holds quiet_nil rfl
    · split
      · exact .holds (quiet_announceRun _) (by rw [phase_announceRun]; rfl)
      · exact .commits (s.commits_commit op) (phase_commit s op).2

theorem treats_gather (h : s.phase = .gather) : ∃ op, (s.react none).Treats op := by
  cases ha : s.run.active with
  | false =>
    have hr : s.react none = s.settle := by simp [react, h, ha]
    rw [hr]
    exact ⟨⟨0⟩, treats_settle ha _⟩
  | true =>
    have hr : s.react none = s.begin := by simp [react, h, ha]
    rw [hr, begin_eq]
    cases hd : s.processor.decode.1 with
    | error f =>
      have hn : ({ s.check.next with run := {}, fault := some f }.announce .halted).next.run.active = false := by
        simp [next_announce]
      exact ⟨f.opcode, .after s.quiet_check (.after (by simp) (treats_settle hn _))⟩
    | ok op => exact ⟨op, .after (by simp) (treats_consider _ op)⟩

theorem treats_held {op : Opcode} (h : s.phase.held? = some op) (r : Request) :
    (s.react (some r)).Treats op := by
  have ht : (s.take r).next.phase.held? = some op := by rw [phase_take, h]
  cases hp : s.phase with
  | held x hold =>
    obtain rfl : x = op := by simpa [hp, Phase.held?] using h
    cases hold with
    | pause =>
      simp only [react, hp]
      refine .after (s.quiet_take r) ?_
      split
      · exact .holds quiet_nil ht
      · exact treats_consider _ x
    | step =>
      simp only [react, hp]
      refine .after (s.quiet_take r) ?_
      split
      · exact .holds quiet_nil ht
      · exact .after (quiet_announceRun _) (treats_consider _ x)
  | _ => simp [hp, Phase.held?] at h

end Sequencer

namespace Loop

variable {μ : Type} [Bus μ] {l : Loop μ}

def Stems (p : Processor μ) (l : Loop μ) : Prop :=
  ∃ offers, l.sequencer = ((Course.ofProcessor p).follow offers).now

theorem Stems.turn {p : Processor μ} (h : l.Stems p) : l.turn.1.Stems p := by
  by_cases hg : l.sequencer.phase = .gone
  · have ht : l.turn.1.sequencer = l.sequencer := by simp [Loop.turn, isGone, hg]
    rw [Stems, ht]
    exact h
  · obtain ⟨offers, hl⟩ := h
    refine ⟨offers ++ [l.inbox.head?], ?_⟩
    rw [turn_eq hg, Course.follow_append, Course.follow_cons, Course.follow_nil, Course.now_meet, ← hl]

theorem Stems.turns {p : Processor μ} (h : l.Stems p) (n : Nat) : (l.turns n).1.Stems p := by
  induction n with
  | zero => exact h
  | succ n ih => exact ih.turn

theorem Stems.tidy {p : Processor μ} (h : l.Stems p) : l.sequencer.Tidy ∧ l.sequencer.Announced := by
  obtain ⟨offers, hl⟩ := h
  rw [hl]
  exact Course.tidy_follow p offers

theorem Stems.fits {p : Processor μ} (h : l.Stems p) : l.sequencer.phase.Fits l.sequencer.run := by
  obtain ⟨offers, hl⟩ := h
  rw [hl]
  exact Course.fits_follow p offers

theorem Stems.mode_of_held {p : Processor μ} {op : Opcode} (h : l.Stems p)
    (ho : l.sequencer.phase.held? = some op) (hi : l.inbox = []) :
    l.isBlocked = true ∧ (l.sequencer.mode = .paused ∨ l.sequencer.mode = .stepping) := by
  have hf := h.fits
  cases hp : l.sequencer.phase with
  | held x hold =>
    have ha : l.sequencer.run.active = true := by
      rw [hp] at hf
      cases hold <;> exact hf.1
    exact ⟨by simp [isBlocked, hp, hi],
      Sequencer.mode_of_blocked h.fits h.tidy.2 (by simp [hp]) (by simp [isBlocked, hp]) ha⟩
  | _ => simp [hp, Phase.held?] at ho

theorem turns_requests (n : Nat) (h : ∀ m < n, (l.turns m).1.sequencer.phase ≠ .gone) :
    Event.requests (l.turns n).2 = l.inbox.take n ∧ (l.turns n).1.inbox = l.inbox.drop n := by
  induction n with
  | zero => exact ⟨rfl, rfl⟩
  | succ n ih =>
    obtain ⟨he, hi⟩ := ih fun m hm => h m (by omega)
    have hg := h n (by omega)
    rw [turns_succ, turn_eq hg, Event.requests_append, he, Sequencer.requests_react hg, hi, List.head?_drop,
      List.tail_drop, List.take_add_one]
    exact ⟨rfl, rfl⟩

theorem gone_of_le {m n : Nat} (h : (l.turns m).1.sequencer.phase = .gone) (hm : m ≤ n) :
    (l.turns n).1.sequencer.phase = .gone := by
  obtain ⟨i, rfl⟩ := Nat.exists_eq_add_of_le hm
  rw [turns_add, (turns_of_gone h i).1, h]

theorem requests_turns (l : Loop μ) (n : Nat) : Event.requests (l.turns n).2 <+: l.inbox := by
  induction n with
  | zero => exact List.nil_prefix
  | succ n ih =>
    by_cases hg : (l.turns n).1.sequencer.phase = .gone
    · have he : (l.turns n).1.turn.2 = [] := by simp [Loop.turn, isGone, hg]
      rw [turns_succ, he, List.append_nil]
      exact ih
    · rw [(turns_requests (n + 1) fun m hm hx => hg (gone_of_le hx (by omega))).1]
      exact List.take_prefix _ _

theorem leaving_turn {r : Request} {rs : List Request} (hg : l.sequencer.phase ≠ .gone)
    (hi : l.inbox = r :: rs) (hr : r ≠ .shutdown) : l.turn.1.sequencer.leaving = l.sequencer.leaving := by
  have hm := (⟨l.sequencer.processor, l.sequencer, []⟩ : Course μ).leaving_meet (some r) (by simpa using hr)
  rw [turn_eq hg, hi]
  exact hm

theorem staying_turns {p : Processor μ} (h : l.Stems p) (hl : l.sequencer.leaving = false) {n : Nat}
    (hn : n ≤ l.inbox.length) (hs : .shutdown ∉ l.inbox.take n) :
    (l.turns n).1.sequencer.leaving = false ∧ (l.turns n).1.sequencer.phase ≠ .gone ∧
      (l.turns n).1.inbox = l.inbox.drop n := by
  have there : ∀ m, (l.turns m).1.sequencer.leaving = false → (l.turns m).1.sequencer.phase ≠ .gone :=
    fun m hm hg => by simp [(h.turns m).tidy.1.gone hg] at hm
  induction n with
  | zero => exact ⟨hl, there 0 hl, rfl⟩
  | succ n ih =>
    rw [List.take_succ_eq_append_getElem hn, List.mem_append, List.mem_singleton, not_or] at hs
    obtain ⟨hk, hg, hi⟩ := ih (by omega) hs.1
    rw [List.drop_eq_getElem_cons hn] at hi
    have ht : (l.turns (n + 1)).1.sequencer.leaving = false := by
      rw [turns_succ, leaving_turn hg hi (Ne.symm hs.2), hk]
    refine ⟨ht, there _ ht, ?_⟩
    rw [turns_succ, turn_eq hg, hi]
    rfl

/-- What becomes of the instruction that is to be begun, or is in hand, in `n` turns: one instruction is
committed; or none is, and the run is over, or nothing is left to do but to wait for requests. -/
inductive Concludes (l : Loop μ) (n : Nat) : Prop where
  | commits {regs : Registers} : Event.commits (l.turns n).2 = [regs] →
      (l.turns n).1.sequencer.phase.held? = none → Concludes l n
  | ends : Quiet (l.turns n).2 → (l.turns n).1.sequencer.run.active = false →
      (l.turns n).1.sequencer.phase = .rest ∨ (l.turns n).1.sequencer.phase = .gone →
      (l.turns n).1.sequencer.leaving = true ∨ (l.turns n).1.sequencer.mode.isActive = false → Concludes l n
  | waits : Quiet (l.turns n).2 → (l.turns n).1.inbox = [] → (l.turns n).1.isBlocked = true →
      (l.turns n).1.sequencer.mode = .paused ∨ (l.turns n).1.sequencer.mode = .stepping → Concludes l n

namespace Concludes

theorem after {m n : Nat} (hq : Quiet (l.turns m).2) (h : (l.turns m).1.Concludes n) : l.Concludes (m + n) := by
  have ht := l.turns_add m n
  cases h with
  | @commits regs he hp =>
    refine .commits (?_ : Event.commits _ = [regs]) (by rw [ht]; exact hp)
    rw [ht, Event.commits_append, Event.commits_of_quiet hq, he, List.nil_append]
  | ends he ha hp hm =>
    rw [← congrArg Prod.fst ht] at ha hp hm
    exact .ends (by rw [ht]; simp [hq, he]) ha hp hm
  | waits he hi hb hm =>
    rw [← congrArg Prod.fst ht] at hi hb hm
    exact .waits (by rw [ht]; simp [hq, he]) hi hb hm

theorem of_treats {p : Processor μ} {op : Opcode} (h : l.Stems p) (hg : l.sequencer.phase ≠ .gone)
    (ht : (l.sequencer.react l.inbox.head?).Treats op) :
    l.Concludes 1 ∨ Quiet (l.turns 1).2 ∧ (l.turns 1).1.inbox = l.inbox.tail ∧
      (l.turns 1).1.sequencer.phase.held? = some op := by
  have hs := (h.turns 1).tidy.1
  have hx : l.turns 1 = _ := (turns_one l).trans (turn_eq hg)
  rw [hx] at hs
  cases ht with
  | commits he hp => exact .inl (.commits (by rw [hx]; exact he) (by rw [hx]; exact hp))
  | ends he ha hp =>
    refine .inl (.ends (by rw [hx]; exact he) (by rw [hx]; exact ha) (by rw [hx]; exact hp) ?_)
    rw [hx]
    by_cases hl : (l.sequencer.react l.inbox.head?).next.leaving = true
    · exact .inl hl
    · exact .inr (hs.ended (by simpa using hl) ha).2
  | holds he hp =>
    rw [hx]
    exact .inr ⟨he, rfl, hp⟩

theorem of_held {p : Processor μ} {op : Opcode} (h : l.Stems p) (ho : l.sequencer.phase.held? = some op)
    (hi : l.inbox = []) : l.Concludes 0 := by
  obtain ⟨hb, hm⟩ := h.mode_of_held ho hi
  exact .waits quiet_nil hi hb hm

end Concludes

theorem concludes_held {p : Processor μ} {op : Opcode} (h : l.Stems p)
    (ho : l.sequencer.phase.held? = some op) :
    ∃ n ≤ l.inbox.length, l.Concludes n ∧ ∀ m < n, (l.turns m).1.sequencer.phase.held? = some op := by
  -- the inbox becomes shorter with every request that leaves the instruction in hand
  induction hn : l.inbox.length generalizing l with
  | zero => exact ⟨0, Nat.le_refl 0, .of_held h ho (List.length_eq_zero_iff.1 hn), by simp⟩
  | succ k ih =>
    obtain ⟨r, rs, hi⟩ := List.exists_cons_of_length_eq_add_one hn
    have hg : l.sequencer.phase ≠ .gone := fun hg => by simp [hg, Phase.held?] at ho
    have ht := Sequencer.treats_held ho r
    have h0 : ∀ m < 1, (l.turns m).1.sequencer.phase.held? = some op := by
      intro m hm
      obtain rfl : m = 0 := by omega
      exact ho
    rcases Concludes.of_treats h hg (by rw [hi]; exact ht) with hc | ⟨hq, hx, hp⟩
    · exact ⟨1, by omega, hc, h0⟩
    · obtain ⟨n, hl, hc, hm⟩ := ih (h.turns 1) hp (by rw [hx, hi]; simpa [hi] using hn)
      refine ⟨1 + n, by omega, hc.after hq, fun m hlt => ?_⟩
      rcases Nat.eq_zero_or_pos m with rfl | hpos
      · exact ho
      · obtain ⟨i, rfl⟩ := Nat.exists_eq_add_of_le hpos
        rw [turns_add]
        exact hm i (by omega)

theorem concludes_gather {p : Processor μ} (h : l.Stems p) (hp : l.sequencer.phase = .gather) :
    l.Concludes (l.inbox.length + 1) := by
  obtain ⟨inbox, ht, hr⟩ := turns_heed l.sequencer l.inbox []
  obtain ⟨hq, he⟩ := Sequencer.heed_of_gather hp l.inbox
  obtain rfl : inbox = [] := hr (by simp [hq])
  have hx : l.turns l.inbox.length =
      (⟨(l.sequencer.heed l.inbox).next, []⟩, (l.sequencer.heed l.inbox).events) := by simpa using ht
  have hs := h.turns l.inbox.length
  rw [hx] at hs
  obtain ⟨op, hop⟩ := Sequencer.treats_gather hq
  refine .after (by rw [hx]; exact he) ?_
  rw [hx]
  rcases Concludes.of_treats hs (by simp [hq]) hop with hc | ⟨hk, hi, ho⟩
  · exact hc
  · exact .after hk (.of_held (hs.turns 1) ho hi)

theorem length_inbox_turns (l : Loop μ) (n : Nat) : (l.turns n).1.inbox.length ≤ l.inbox.length - n := by
  induction n with
  | zero => exact Nat.le_refl _
  | succ n ih =>
    by_cases hg : (l.turns n).1.sequencer.phase = .gone
    · have ht : (l.turns n).1.turn.1.inbox = [] := by simp [turn, isGone, hg]
      rw [turns_succ, ht]
      exact Nat.zero_le _
    · rw [turns_succ, turn_eq hg, List.length_tail]
      omega

theorem commits_turn {p : Processor μ} (h : l.Stems p) (hi : l.inbox = []) (hb : l.isBlocked = false)
    (hd : l.turn.1.isBlocked = false) : (Event.commits l.turn.2).length = 1 := by
  have hp : l.sequencer.phase = .gather := by
    cases hp : l.sequencer.phase with
    | gather => rfl
    | _ => simp [isBlocked, hp, hi] at hb
  have hj : l.turn.1.inbox = [] := by rw [turn_eq (by simp [hp]), hi, List.tail_nil]
  have hc : l.Concludes 1 := by simpa [hi] using concludes_gather h hp
  cases hc with
  | commits he _ => rw [← turns_one, he, List.length_singleton]
  | ends _ _ hq _ =>
    rw [turns_one] at hq
    rcases hq with hq | hq <;> simp [isBlocked, hq, hj] at hd
  | waits _ _ hx _ => rw [turns_one, hd] at hx; cases hx

theorem commits_or_waits {p : Processor μ} (h : l.Stems p) :
    (∀ k, ∃ n, k ≤ (Event.commits (l.turns n).2).length) ∨
      ∃ n, (l.turns n).1.inbox = [] ∧ (l.turns n).1.isBlocked = true ∧
        ∀ i, l.turns (n + i) = l.turns n := by
  by_cases hw : ∃ n, (l.turns n).1.inbox = [] ∧ (l.turns n).1.isBlocked = true
  · obtain ⟨n, hi, hb⟩ := hw
    exact .inr ⟨n, hi, hb, turns_of_blocked hi hb⟩
  · have free : ∀ n, l.inbox.length ≤ n →
        (l.turns n).1.inbox = [] ∧ (l.turns n).1.isBlocked = false := by
      intro n hn
      have hx := l.length_inbox_turns n
      have hi : (l.turns n).1.inbox = [] := List.length_eq_zero_iff.1 (by omega)
      exact ⟨hi, by simpa using fun hb => hw ⟨n, hi, hb⟩⟩
    -- with the inbox empty every turn that does not have to wait commits
    have count : ∀ k, (Event.commits (l.turns (l.inbox.length + k)).2).length =
        (Event.commits (l.turns l.inbox.length).2).length + k := by
      intro k
      induction k with
      | zero => rfl
      | succ k ih =>
        obtain ⟨hi, hb⟩ := free (l.inbox.length + k) (by omega)
        obtain ⟨-, hd⟩ := free (l.inbox.length + k + 1) (by omega)
        rw [← Nat.add_assoc, turns_succ, Event.commits_append, List.length_append, ih,
          commits_turn (h.turns _) hi hb hd]
        omega
    exact .inl fun k => ⟨l.inbox.length + k, by rw [count]; omega⟩

end Loop

namespace Course

variable {μ : Type} [Bus μ]

/-- Whatever a sequencer has come to, it gets on with any requests that it is sent. They are taken in their
order and none of them twice; none is lost before the sequencer has gone, so that all of them are taken up to
the first shutdown. An instruction is made to wait for a step once at most. The next instruction is concluded
right after the requests are taken, and one in hand while they are. So at last instructions are committed for
ever, or the sequencer waits with nothing left to take, or it has gone. -/
theorem makes_headway (p : Processor μ) (offers : List (Option Request)) (queue : List Request) :
    let s := ((ofProcessor p).follow offers).now
    let l : Loop μ := ⟨s, queue⟩
    ((∀ n, Event.requests (l.turns n).2 <+: queue) ∧
      (∀ n, (∀ m < n, (l.turns m).1.sequencer.phase ≠ .gone) →
        Event.requests (l.turns n).2 = queue.take n ∧ (l.turns n).1.inbox = queue.drop n) ∧
      ∀ first rest, queue = first ++ rest → s.leaving = false → .shutdown ∉ first.dropLast →
        Event.requests (l.turns first.length).2 = first ∧ (l.turns first.length).1.inbox = rest) ∧
    (∀ later, s.suspensions later ≤ 1) ∧
    (s.phase = .gather → l.Concludes (queue.length + 1)) ∧
    (∀ op, s.phase.held? = some op →
      ∃ n ≤ queue.length, l.Concludes n ∧ ∀ m < n, (l.turns m).1.sequencer.phase.held? = some op) ∧
    ((∀ k, ∃ n, k ≤ (Event.commits (l.turns n).2).length) ∨
      ∃ n, (l.turns n).1.inbox = [] ∧ (l.turns n).1.isBlocked = true ∧
        ∀ i, l.turns (n + i) = l.turns n) := by
  intro s l
  have h : l.Stems p := ⟨offers, rfl⟩
  refine ⟨⟨l.requests_turns, Loop.turns_requests, ?_⟩, s.suspensions_le_one, Loop.concludes_gather h,
    fun op => Loop.concludes_held h, Loop.commits_or_waits h⟩
  intro first rest hq hl hs
  have hi : l.inbox = first ++ rest := hq
  have there : ∀ m < first.length, (l.turns m).1.sequencer.phase ≠ .gone := by
    intro m hm
    have ht : l.inbox.take m = first.dropLast.take m := by
      rw [hi, List.take_append_of_le_length (by omega), List.dropLast_eq_take, List.take_take,
        Nat.min_eq_left (by omega)]
    have hn : m ≤ l.inbox.length := by
      rw [hi, List.length_append]
      omega
    exact (Loop.staying_turns h hl hn fun hx => hs (List.mem_of_mem_take (ht ▸ hx))).2.1
  obtain ⟨he, hr⟩ := Loop.turns_requests first.length there
  exact ⟨by rw [he, hi, List.take_left], by rw [hr, hi, List.drop_left]⟩

/-- An instruction that a breakpoint holds back is concluded by a step, though the run is paused before. -/
theorem makes_headway_from_breakpoint :
    let s := ((ofProcessor { bus := Ram.empty }).follow
      [some (.addBreakpoint 0x0100), some (.start false), none]).now
    let queue : List Request := [.adjust .pause, .adjust .singleStep, .adjust .resume]
    let l : Loop Ram := ⟨s, queue⟩
    s.phase.held? = some ⟨0⟩ ∧
      (∃ n ≤ 3, l.Concludes n ∧ ∀ m < n, (l.turns m).1.sequencer.phase.held? = some ⟨0⟩) ∧
      Event.requests (l.turns 3).2 = queue := by
  intro s queue l
  have h : s.phase.held? = some ⟨0⟩ := rfl
  have hq : .shutdown ∉ queue.dropLast := by decide
  obtain ⟨⟨-, -, ht⟩, -, -, hc, -⟩ :=
    makes_headway { bus := Ram.empty } [some (.addBreakpoint 0x0100), some (.start false), none] queue
  obtain ⟨n, hn, hl, hm⟩ := hc ⟨0⟩ h
  exact ⟨h, ⟨n, hn, hl, hm⟩, (ht queue [] (List.append_nil _).symm rfl hq).1⟩

end Course

end Sm83
