import Sm83.Proofs.Consistency
import Sm83.Proofs.Turns

/-!
How a sequencer leaves. A shutdown is the last request it takes while it rests or holds an instruction back; one
that it meets while it gathers requests is not, and what comes behind can begin one more instruction.
-/

set_option autoImplicit false

namespace Sm83

/-- Without a run it changes nothing. -/
def Request.isVain : Request → Bool
  | .stop | .adjust _ | .queryBreakpoint _ | .shutdown => true
  | _ => false

namespace Event

def isShown : Event → Bool
  | .committed _ | .alert _ | .entered _ => true
  | .note _ | .answer _ _ => false

def shown (es : List Event) : List Event := es.filter isShown

@[simp] theorem shown_append (es fs : List Event) : shown (es ++ fs) = shown es ++ shown fs := by
  simp [shown]

end Event

namespace Sequencer

variable {μ : Type} {s : Sequencer μ}

theorem take_vain (ha : s.run.active = false) (hl : s.leaving = true) {r : Request} (hr : r.isVain = true) :
    (s.take r).next = s ∧ Event.shown (s.take r).events = [] := by
  cases r with
  | stop => simp [take, saying, obey, ha, Reaction.andThen, Event.shown, Event.isShown]
  | adjust a => simp [take, saying, obey, ha, Reaction.andThen, Event.shown, Event.isShown]
  | queryBreakpoint a => simp [take, saying, obey, Reaction.andThen, Event.shown, Event.isShown]
  | shutdown =>
    refine ⟨?_, rfl⟩
    rw [next_take, obey, ← ha, ← hl]
  | _ => cases hr

/-- A sequencer told to leave goes after one instruction at most, or waits before it. -/
inductive Parts (r : Reaction μ) : Prop where
  | goes : r.next.phase = .gone → (Event.commits r.events).length ≤ 1 → Parts r
  | waits {op : Opcode} {hold : Hold} : r.next.phase = .held op hold → Quiet r.events → Parts r

theorem parts_settle (hl : s.leaving = true) : Parts s.settle :=
  .goes (by simp [next_settle, between, hl]) (by simp [Event.commits_of_quiet])

variable [Bus μ]

/-- Takes requests one after the other, as long as it is there to take them. -/
def heed (s : Sequencer μ) : List Request → Reaction μ
  | [] => ⟨s, []⟩
  | r :: rs => if s.phase = .gone then ⟨s, []⟩ else (s.react (some r)).andThen (·.heed rs)

theorem heed_of_gone (h : s.phase = .gone) (rs : List Request) : s.heed rs = ⟨s, []⟩ := by
  cases rs with
  | nil => rfl
  | cons r rs => simp [heed, h]

theorem heed_append (s : Sequencer μ) (rs qs : List Request) :
    s.heed (rs ++ qs) = (s.heed rs).andThen (·.heed qs) := by
  induction rs generalizing s with
  | nil => simp [heed, Reaction.andThen]
  | cons r rs ih =>
    by_cases h : s.phase = .gone
    · simp [heed, h, heed_of_gone h, Reaction.andThen]
    · simp only [List.cons_append, heed, h, if_false, ih, Reaction.andThen_assoc]

theorem heed_vain (hp : s.phase = .gather) (ha : s.run.active = false) (hl : s.leaving = true)
    {rs : List Request} (hr : ∀ r ∈ rs, r.isVain = true) :
    (s.heed rs).next = s ∧ Event.shown (s.heed rs).events = [] := by
  induction rs with
  | nil => exact ⟨rfl, rfl⟩
  | cons r rs ih =>
    obtain ⟨hn, he⟩ := s.take_vain ha hl (hr r (by simp))
    obtain ⟨hm, hf⟩ := ih fun q hq => hr q (by simp [hq])
    simp [heed, react, hp, hn, he, hm, hf]

theorem gone_of_shutdown (h : s.phase ≠ .gather) : (s.heed [.shutdown]).next.phase = .gone := by
  by_cases hg : s.phase = .gone
  · rw [heed_of_gone hg, hg]
  · have hn : (s.heed [.shutdown]).next = (s.react (some .shutdown)).next := by simp [heed, hg]
    have hl : (s.take .shutdown).next.leaving = true := rfl
    rw [hn, next_react_of_inactive rfl h hg, next_settle]
    simp [between, hl]

theorem heed_of_gather (hp : s.phase = .gather) (rs : List Request) :
    (s.heed rs).next.phase = .gather ∧ Quiet (s.heed rs).events := by
  induction rs generalizing s with
  | nil => exact ⟨hp, quiet_nil⟩
  | cons r rs ih =>
    obtain ⟨hn, hq⟩ := ih (s := (s.take r).next) (by rw [phase_take, hp])
    simp [heed, react, hp, hn, hq]

theorem leaving_heed (hp : s.phase = .gather) (hl : s.leaving = true) (rs : List Request) :
    (s.heed rs).next.leaving = true := by
  induction rs generalizing s with
  | nil => exact hl
  | cons r rs ih =>
    have hn := ih (s := (s.take r).next) (by rw [phase_take, hp]) (by simp [next_take, leaving_obey, hl])
    simpa [heed, react, hp] using hn

theorem parts_consider (hl : s.leaving = true) (op : Opcode) : Parts (s.consider op) := by
  unfold consider
  split
  · exact parts_settle hl
  · split
    · exact .waits rfl quiet_nil
    · split
      · exact .waits (phase_announceRun _) (quiet_announceRun _)
      · have hx : (s.retire op).next.leaving = true := hl
        refine .goes ?_ (by simp [commits_commit])
        simp [commit_eq, next_settle, between, hx]

theorem parts_react (hp : s.phase = .gather) (hl : s.leaving = true) : Parts (s.react none) := by
  by_cases ha : s.run.active = true
  · -- a start was taken behind the shutdown: its first instruction is the one that is still committed
    have hr : s.react none = s.begin := by simp [react, hp, ha]
    have hc : s.check.next.leaving = true := hl
    rw [hr, begin_eq]
    cases hd : s.processor.decode.1 with
    | error f =>
      refine .goes ?_ (by simp [Event.commits_of_quiet])
      simp [lock, next_settle, next_announce, between, hc]
    | ok op =>
      have hq : Quiet (s.check.andThen (·.saying (.decoded op))).events := by simp
      cases parts_consider hc op with
      | goes hn he =>
        refine .goes hn ?_
        rwa [Reaction.events_andThen, Event.commits_append, Event.commits_of_quiet hq]
      | waits hn he => exact .waits hn (by simpa using he)
  · have hr : s.react none = s.settle := by simp [react, hp, ha]
    rw [hr]
    exact parts_settle hl

end Sequencer

namespace Loop

variable {μ : Type} [Bus μ] {l : Loop μ} {s : Sequencer μ}

theorem turns_of_gone (h : l.sequencer.phase = .gone) (n : Nat) :
    (l.turns n).1.sequencer = l.sequencer ∧ (l.turns n).2 = [] := by
  induction n with
  | zero => exact ⟨rfl, rfl⟩
  | succ n ih =>
    obtain ⟨hs, he⟩ := ih
    have ht : (l.turns n).1.turn = (⟨l.sequencer, []⟩, []) := by simp [turn, isGone, hs, h]
    rw [turns_succ, ht, he]
    exact ⟨rfl, rfl⟩

/-- The requests in front are taken one a turn, and what stands behind them does not matter. -/
theorem turns_heed (s : Sequencer μ) (rs rest : List Request) :
    ∃ inbox,
      (⟨s, rs ++ rest⟩ : Loop μ).turns rs.length = (⟨(s.heed rs).next, inbox⟩, (s.heed rs).events) ∧
      ((s.heed rs).next.phase ≠ .gone → inbox = rest) := by
  induction rs generalizing s with
  | nil => exact ⟨rest, rfl, fun _ => rfl⟩
  | cons r rs ih =>
    by_cases hg : s.phase = .gone
    · rw [Sequencer.heed_of_gone hg]
      obtain ⟨hs, he⟩ := turns_of_gone (l := ⟨s, r :: rs ++ rest⟩) hg (r :: rs).length
      exact ⟨_, Prod.ext (congrArg (Loop.mk · _) hs) he, fun h => absurd hg h⟩
    · have ht : (⟨s, r :: rs ++ rest⟩ : Loop μ).turn =
          (⟨(s.react (some r)).next, rs ++ rest⟩, (s.react (some r)).events) := turn_eq hg
      obtain ⟨inbox, hi, hr⟩ := ih (s.react (some r)).next
      refine ⟨inbox, ?_, ?_⟩
      · rw [List.length_cons, Nat.add_comm, turns_add, turns_one, ht, hi]
        simp [Sequencer.heed, hg]
      · simpa [Sequencer.heed, hg] using hr

/-- The sequencer has gone, as `s`, and all that was told by then is `es`. -/
def Exits (l : Loop μ) (s : Sequencer μ) (es : List Event) : Prop :=
  s.phase = .gone ∧ ∃ n, ∀ i, (l.turns (n + i)).1.sequencer = s ∧ (l.turns (n + i)).2 = es

/-- At last nothing happens any more, and one instruction at most was committed besides those of `es`. -/
def Ceases (l : Loop μ) (es : List Event) : Prop :=
  ∃ n, ∀ i, (l.turns (n + i)).1.isBlocked = true ∧
    ∃ more, more.length ≤ 1 ∧ Event.commits (l.turns (n + i)).2 = Event.commits es ++ more

theorem Exits.ceases {es : List Event} (h : l.Exits s es) : l.Ceases es := by
  obtain ⟨hg, n, hn⟩ := h
  refine ⟨n, fun i => ⟨?_, [], by simp, ?_⟩⟩
  · simp [isBlocked, (hn i).1, hg]
  · rw [(hn i).2, List.append_nil]

theorem exits_of_gone {n : Nat} (h : (l.turns n).1.sequencer.phase = .gone) :
    l.Exits (l.turns n).1.sequencer (l.turns n).2 := by
  refine ⟨h, n, fun i => ?_⟩
  obtain ⟨hs, he⟩ := turns_of_gone h i
  rw [turns_add, hs, he, List.append_nil]
  exact ⟨rfl, rfl⟩

theorem exits_of_heed {rs : List Request} (rest : List Request) (h : (s.heed rs).next.phase = .gone) :
    (⟨s, rs ++ rest⟩ : Loop μ).Exits (s.heed rs).next (s.heed rs).events := by
  obtain ⟨inbox, hi, -⟩ := turns_heed s rs rest
  have hx := exits_of_gone (l := ⟨s, rs ++ rest⟩) (n := rs.length)
  rw [hi] at hx
  exact hx h

theorem exits_of_gather (s : Sequencer μ) (rs : List Request) (hp : (s.heed rs).next.phase = .gather)
    (ha : (s.heed rs).next.run.active = false) (hl : (s.heed rs).next.leaving = true) :
    (⟨s, rs⟩ : Loop μ).Exits { (s.heed rs).next with phase := .gone }
      ((s.heed rs).events ++ [.note .closed]) := by
  obtain ⟨inbox, hi, hr⟩ := turns_heed s rs []
  obtain rfl : inbox = [] := hr (by simp [hp])
  have hn : (s.heed rs).next.react none = ⟨{ (s.heed rs).next with phase := .gone }, [.note .closed]⟩ := by
    simp [Sequencer.react, hp, ha, Sequencer.settle, hl, Sequencer.saying]
  have ht : (⟨(s.heed rs).next, []⟩ : Loop μ).turn =
      (⟨{ (s.heed rs).next with phase := .gone }, []⟩, [.note .closed]) := by
    rw [turn_eq (by simp [hp])]
    simp [hn]
  rw [List.append_nil] at hi
  have hx := exits_of_gone (l := ⟨s, rs⟩) (n := rs.length + 1)
  rw [turns_succ, hi, ht] at hx
  exact hx rfl

theorem ceases_of_gather (s : Sequencer μ) (rs : List Request) (hp : (s.heed rs).next.phase = .gather)
    (hl : (s.heed rs).next.leaving = true) : (⟨s, rs⟩ : Loop μ).Ceases (s.heed rs).events := by
  obtain ⟨inbox, hi, hr⟩ := turns_heed s rs []
  obtain rfl : inbox = [] := hr (by simp [hp])
  rw [List.append_nil] at hi
  have ht : (⟨s, rs⟩ : Loop μ).turns (rs.length + 1) = (⟨((s.heed rs).next.react none).next, []⟩,
      (s.heed rs).events ++ ((s.heed rs).next.react none).events) := by
    rw [turns_succ, hi, turn_eq (by simp [hp])]
    rfl
  have hb : ((⟨s, rs⟩ : Loop μ).turns (rs.length + 1)).1.isBlocked = true := by
    rw [ht]
    cases Sequencer.parts_react hp hl with
    | goes hn he => simp [isBlocked, hn]
    | waits hn he => simp [isBlocked, hn]
  refine ⟨rs.length + 1, fun i => ?_⟩
  rw [turns_of_blocked (by rw [ht]) hb]
  refine ⟨hb, Event.commits ((s.heed rs).next.react none).events, ?_, by rw [ht, Event.commits_append]⟩
  cases Sequencer.parts_react hp hl with
  | goes hn he => exact he
  | waits hn he => simp [Event.commits_of_quiet he]

theorem exits_behind {rs rest : List Request} (hp : (s.heed rs).next.phase = .gather)
    (ha : (s.heed rs).next.run.active = false) (hl : (s.heed rs).next.leaving = true)
    (hv : ∀ r ∈ rest, r.isVain = true) :
    ∃ fs, (⟨s, rs ++ rest⟩ : Loop μ).Exits { (s.heed rs).next with phase := .gone } fs ∧
      Event.shown fs = Event.shown ((s.heed rs).events ++ [.note .closed]) := by
  obtain ⟨hn, hs⟩ := Sequencer.heed_vain hp ha hl hv
  have hx : (s.heed (rs ++ rest)).next = (s.heed rs).next := by
    rw [Sequencer.heed_append, Reaction.next_andThen, hn]
  have he := exits_of_gather s (rs ++ rest)
  rw [hx] at he
  refine ⟨_, he hp ha hl, ?_⟩
  rw [Sequencer.heed_append, Reaction.events_andThen]
  simp [hs]

theorem ceases_behind {rs : List Request} (hp : (s.heed rs).next.phase = .gather)
    (hl : (s.heed rs).next.leaving = true) (rest : List Request) :
    (⟨s, rs ++ rest⟩ : Loop μ).Ceases ((s.heed rs).events ++ [.note .closed]) ∧
      ((s.heed (rs ++ rest)).next.run.active = false →
        ∃ t fs, (⟨s, rs ++ rest⟩ : Loop μ).Exits t fs ∧
          Event.commits fs = Event.commits ((s.heed rs).events ++ [.note .closed])) := by
  obtain ⟨hq, he⟩ := Sequencer.heed_of_gather hp rest
  have hk := Sequencer.leaving_heed hp hl rest
  have hx := s.heed_append rs rest
  have hc : Event.commits (s.heed (rs ++ rest)).events =
      Event.commits ((s.heed rs).events ++ [.note .closed]) := by
    rw [hx, Reaction.events_andThen, Event.commits_append, Event.commits_append, Event.commits_of_quiet he]
    rfl
  have hn : (s.heed (rs ++ rest)).next = ((s.heed rs).next.heed rest).next := by
    rw [hx, Reaction.next_andThen]
  rw [← hn] at hq hk
  refine ⟨?_, fun ha => ⟨_, _, exits_of_gather s (rs ++ rest) hq ha hk, ?_⟩⟩
  · rw [Ceases, ← hc]
    exact ceases_of_gather s (rs ++ rest) hq hk
  · rw [Event.commits_append, hc]
    simp [Event.commits, Event.commit?]

end Loop

namespace Sequencer

variable {μ : Type} [Bus μ]

theorem heed_shutdown (s : Sequencer μ) (rs : List Request) :
    let t := (s.heed (rs ++ [.shutdown])).next
    ((s.heed rs).next.phase ≠ .gather → t.phase = .gone) ∧
    ((s.heed rs).next.phase = .gather → t.phase = .gather ∧ t.run.active = false ∧ t.leaving = true) := by
  simp only [heed_append, Reaction.next_andThen]
  refine ⟨gone_of_shutdown, fun hp => ?_⟩
  have hn : ((s.heed rs).next.heed [.shutdown]).next = ((s.heed rs).next.take .shutdown).next := by
    simp [heed, react, hp]
  rw [hn, phase_take]
  exact ⟨hp, rfl, rfl⟩

end Sequencer

namespace Loop

variable {μ : Type} [Bus μ]

/-- A shutdown that comes last is always the end. What stands behind it in the inbox does not matter if the
shutdown was met at rest or with an instruction held back, or if none of it means anything without a run. In any
case it commits one more instruction at most, and none if it leaves no run. -/
theorem shutdown_final (s : Sequencer μ) (first : List Request) :
    ∃ t es, (⟨s, first ++ [.shutdown]⟩ : Loop μ).Exits t es ∧
      ∀ rest, let l : Loop μ := ⟨s, first ++ .shutdown :: rest⟩
        ((s.heed first).next.phase ≠ .gather ∨ (∀ r ∈ rest, r.isVain = true) →
          ∃ fs, l.Exits t fs ∧ Event.shown fs = Event.shown es) ∧
        l.Ceases es ∧
        ((s.heed (first ++ .shutdown :: rest)).next.run.active = false →
          ∃ u fs, l.Exits u fs ∧ Event.commits fs = Event.commits es) := by
  obtain ⟨hg, hw⟩ := s.heed_shutdown first
  have hr : ∀ rest, first ++ Request.shutdown :: rest = (first ++ [.shutdown]) ++ rest := by simp
  by_cases hp : (s.heed first).next.phase = .gather
  · obtain ⟨hq, ha, hl⟩ := hw hp
    refine ⟨_, _, exits_of_gather _ _ hq ha hl, fun rest => ?_⟩
    rw [hr]
    exact ⟨fun hv => exits_behind hq ha hl (hv.resolve_left (by simp [hp])), ceases_behind hq hl rest⟩
  · have he := exits_of_heed [] (hg hp)
    rw [List.append_nil] at he
    refine ⟨_, _, he, fun rest => ?_⟩
    rw [hr]
    have hx := exits_of_heed rest (hg hp)
    exact ⟨fun _ => ⟨_, hx, rfl⟩, hx.ceases, fun _ => ⟨_, _, hx, rfl⟩⟩

/-- A start behind the shutdown that a run meets commits one more instruction, and with a pause behind it the
sequencer never goes. -/
theorem run_behind_shutdown :
    let l (rest : List Request) : Loop Ram :=
      ⟨.ofProcessor { bus := Ram.empty }, [.start false, .shutdown] ++ rest⟩
    (∃ s es, (l []).Exits s es ∧ Event.commits es = []) ∧
    (∃ n, (Event.commits ((l [.start false]).turns n).2).length = 1) ∧
    ∃ n, ∀ i, ((l [.start false, .adjust .pause]).turns (n + i)).1.isGone = false := by
  intro l
  have hg : ((l []).turns 3).1.sequencer.phase = .gone := by decide
  have hi : ((l [.start false, .adjust .pause]).turns 5).1.inbox = [] := by decide
  have hb : ((l [.start false, .adjust .pause]).turns 5).1.isBlocked = true := by decide
  refine ⟨⟨_, _, exits_of_gone hg, by decide⟩, ⟨4, by decide⟩, 5, fun i => ?_⟩
  rw [turns_of_blocked hi hb]
  decide

end Loop

end Sm83
