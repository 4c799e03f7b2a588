import Sm83.Bus.Ram
import Sm83.Bus.Traced
import Sm83.Proofs.Consistency
import Sm83.Proofs.Fetch

/-!
What a pause lets through. Requests are gathered before an instruction is fetched, and the pause is looked at
after it: one instruction is still fetched when the pause came in between, and held back. A pause that finds an
instruction in hand lets nothing through.
-/

set_option autoImplicit false

namespace Sm83

def Request.endsPause : Request → Bool
  | .adjust .resume | .stop | .reset => true
  | _ => false

namespace Sequencer

variable {μ : Type} {s : Sequencer μ}

theorem activeMode_eq_paused_iff (s : Sequencer μ) : s.activeMode = .paused ↔ s.run.paused = true := by
  unfold activeMode
  split
  next hp => simp [hp]
  next hp => split <;> simp [hp]

theorem Announced.paused (h : s.Announced) (hm : s.mode = .paused) (ha : s.run.active = true) :
    s.run.paused = true := by
  rw [← activeMode_eq_paused_iff, ← h ha, hm]

theorem bus_take (s : Sequencer μ) (r : Request) : (s.take r).next.processor.bus = s.processor.bus := by
  rw [next_take, processor_obey]
  split <;> rfl

theorem Tidy.leaving_of_paused (h : s.Tidy) (hm : s.mode = .paused) (ha : s.run.active = false) :
    s.leaving = true := by
  cases hl : s.leaving with
  | true => rfl
  | false =>
    have hx := (h.ended hl ha).2
    simp [hm, Mode.isActive] at hx

theorem mode_take_of_paused (ht : s.Tidy) (ha : s.Announced) (hm : s.mode = .paused) (hl : s.leaving = false)
    {r : Request} (hr : r.endsPause = false) : (s.take r).next.mode = .paused := by
  rw [next_take]
  cases r with
  | start debug =>
    by_cases hx : s.run.active = true
    · simp [obey, hx, hm]
    · have hk := ht.leaving_of_paused hm (by simpa using hx)
      simp [hl] at hk
  | stop => cases hr
  | adjust a =>
    by_cases hx : s.run.active = true
    · have hp : (s.run.adjust a).paused = true := by
        have hp := ha.paused hm hx
        cases a with
        | resume => cases hr
        | sticky on => cases on <;> exact hp
        | pause => rfl
        | singleStep => exact hp
      simp [obey, hx, mode_announceRun, activeMode, hp]
    · simp [obey, hx, hm]
  | reset => cases hr
  | addBreakpoint a => simp only [obey]; split <;> exact hm
  | removeBreakpoint a => simp only [obey]; split <;> exact hm
  | queryBreakpoint a => exact hm
  | shutdown => exact hm

theorem announced_announceRun (s : Sequencer μ) : s.announceRun.next.Announced := by
  intro ha
  have hr : s.run.active = true := by simpa using ha
  rw [mode_announceRun, if_pos hr]
  simp [activeMode]

variable [Bus μ]

theorem mode_commit (s : Sequencer μ) (op : Opcode) :
    (s.commit op).next.mode = if (s.processor.execute op).1.outcome = .stop then .stopped else s.mode := by
  rw [commit_eq, Reaction.next_andThen, Reaction.next_andThen, next_settle]
  exact mode_finish _ _

theorem consider_of_paused (ha : s.Announced) (hm : s.mode = .paused) (op : Opcode) :
    (s.consider op).next.mode = .paused ∧ (s.consider op).next.processor = s.processor ∧
      (s.consider op).next.phase ≠ .gather := by
  by_cases hx : s.run.active = true
  · have hp := ha.paused hm hx
    simp [consider, hx, hp, hm]
  · have hx : s.run.active = false := by simpa using hx
    rw [consider_of_inactive hx, next_settle]
    refine ⟨hm, rfl, ?_⟩
    simp only [between, hx]
    split <;> simp

theorem mode_consider_ne_paused (ha : s.Announced) (hm : s.mode ≠ .paused) (op : Opcode) :
    (s.consider op).next.mode ≠ .paused := by
  by_cases hx : s.run.active = true
  · have hp : s.run.paused = false := by
      cases hp : s.run.paused with
      | false => rfl
      | true => exact absurd ((ha hx).trans (s.activeMode_eq_paused_iff.2 hp)) hm
    by_cases hs : s.run.debug = true ∧ s.run.armed = true
    · simp [consider, hx, hp, hs, mode_announceRun, activeMode, Phase.isSuspended]
    · have hc : s.consider op = s.commit op := by simp [consider, hx, hp, hs]
      rw [hc, mode_commit]
      split
      · simp
      · exact hm
  · rw [consider_of_inactive (by simpa using hx), next_settle]
    exact hm

variable {w : Watch} {r : Request}

theorem react_of_pause_kept (h : w.Agrees s s.phase.held?) (hf : s.phase.Fits s.run) (ht : s.Tidy)
    (hm : s.mode = .paused) (hg : s.phase ≠ .gone) (hk : (s.take r).next.mode = .paused) :
    (s.react (some r)).next.mode = .paused ∧ (s.react (some r)).next.processor = s.processor ∧
      ((s.react (some r)).next.phase = .gather → s.phase = .gather) := by
  have ha : (s.take r).next.Announced := (h.take hf.held?_eq_none r).announced
  have hp : (s.take r).next.processor = s.processor := by
    have hr : r ≠ .reset := by
      rintro rfl
      simp [next_take, obey, next_announce] at hk
    rw [next_take, processor_obey, if_neg hr]
  cases hx : s.phase with
  | rest =>
    rw [hx] at hf
    have hl : (s.take r).next.leaving = true := by
      rw [next_take, leaving_obey, ht.leaving_of_paused hm hf]
      rfl
    simp [react, hx, next_settle, between, hk, hp, hl]
  | gather => simp [react, hx, hk, hp]
  | held op hold =>
    cases hold with
    | pause =>
      simp only [react, hx, Reaction.next_andThen]
      split
      · simp [hk, hp, hx]
      · have hc := consider_of_paused ha hk op
        exact ⟨hc.1, hc.2.1.trans hp, fun hy => absurd hy hc.2.2⟩
    | step =>
      simp only [react, hx, Reaction.next_andThen]
      split
      · simp [hk, hp, hx]
      · have hq : { (s.take r).next with phase := .gather }.announceRun.next.mode = .paused := by
          rw [mode_announceRun]
          split
          next hy =>
            have hr : (s.take r).next.run.paused = true := ha.paused hk hy
            exact (activeMode_eq_paused_iff _).2 hr
          next => exact hk
        have hc := consider_of_paused (announced_announceRun _) hq op
        exact ⟨hc.1, hc.2.1.trans (by simpa using hp), fun hy => absurd hy hc.2.2⟩
  | gone => exact absurd hx hg

theorem react_of_pause_ended (h : w.Agrees s s.phase.held?) (hf : s.phase.Fits s.run)
    (hg : s.phase ≠ .gone) (hk : (s.take r).next.mode ≠ .paused) :
    (s.react (some r)).next.mode ≠ .paused := by
  have ha : (s.take r).next.Announced := (h.take hf.held?_eq_none r).announced
  cases hx : s.phase with
  | rest => simpa [react, hx, next_settle] using hk
  | gather => simpa [react, hx] using hk
  | held op hold =>
    cases hold with
    | pause =>
      simp only [react, hx, Reaction.next_andThen]
      split
      · exact hk
      · exact mode_consider_ne_paused ha hk op
    | step =>
      simp only [react, hx, Reaction.next_andThen]
      split
      · exact hk
      · refine mode_consider_ne_paused (announced_announceRun _) ?_ op
        rw [mode_announceRun]
        split
        next hy =>
          rw [ne_eq, activeMode_eq_paused_iff]
          exact fun hp => hk ((ha hy).trans ((activeMode_eq_paused_iff _).2 hp))
        next => exact hk
  | gone => exact absurd hx hg

/-- What a paused sequencer makes of an offer. It stays as it is; or it gathers requests, and finding none it
fetches the next instruction, which it holds back, or meets a fault; or a request ends the pause first of all. Behind a
shutdown that request can be another than those that end a pause. -/
inductive Pausing (s : Sequencer μ) : Option Request → Reaction μ → Prop where
  | stays {o : Option Request} {r : Reaction μ} : r.next.mode = .paused → r.next.processor = s.processor →
      Unread r.events → (r.next.phase = .gather → s.phase = .gather) → Pausing s o r
  | fetches {op : Opcode} {r : Reaction μ} : s.phase = .gather → s.processor.decode.1 = .ok op →
      r.next.mode = .paused → r.next.processor = s.processor.decode.2 →
      r.events.filter Event.isFetch = [.note (.decoded op)] → r.next.phase ≠ .gather → Pausing s none r
  | faults {f : Fault} {r : Reaction μ} : s.phase = .gather → s.processor.decode.1 = .error f →
      r.next.mode = .halted → r.next.processor = s.processor.decode.2 → r.next.fault = some f →
      r.events.filter Event.isFetch =
        [.note (.faulted f s.processor.regs), .alert f.message, .entered .halted] → Pausing s none r
  | ends {q : Request} {t : Reaction μ} : (s.leaving = false → q.endsPause = true) → (s.take q).next.mode ≠ .paused →
      t.next.mode ≠ .paused → Unread ((s.take q).andThen fun _ => t).events →
      Pausing s (some q) ((s.take q).andThen fun _ => t)

theorem pausing_begin (hm : s.mode = .paused) (hp : s.phase = .gather) (hx : s.run.active = true)
    (hr : s.run.paused = true) : s.Pausing none s.begin := by
  rw [begin_eq]
  have hf : s.check.events.filter Event.isFetch = [] := s.unread_check.filter_eq_nil
  have hk : s.check.next.mode = .paused := hm
  cases hd : s.processor.decode.1 with
  | error f =>
    refine .faults hp hd ?_ (processor_lock _ f) (fault_lock _ f) ?_
    · simp [lock, next_settle, next_announce]
    · rw [Reaction.events_andThen, List.filter_append, hf, fetch_lock (by simp [hk])]
      rfl
  | ok op =>
    have hc : s.check.next.consider op = ⟨{ s.check.next with phase := .held op .pause }, []⟩ := by
      simp [consider, hx, hr]
    have hq : s.check.next.processor = s.processor.decode.2 := rfl
    refine .fetches hp hd ?_ ?_ ?_ ?_
    · simp [hc, hk]
    · simp [hc, hq]
    · simp [hc, hf, Event.isFetch]
    · simp [hc]

theorem pausing_react (h : w.Agrees s s.phase.held?) (hf : s.phase.Fits s.run) (ht : s.Tidy)
    (hm : s.mode = .paused) (o : Option Request) : s.Pausing o (s.react o) := by
  cases o with
  | none =>
    cases hp : s.phase with
    | gather =>
      by_cases hx : s.run.active = true
      · have hr : s.react none = s.begin := by simp [react, hp, hx]
        rw [hr]
        exact pausing_begin hm hp hx (Announced.paused h.announced hm hx)
      · have hr : s.react none = s.settle := by simp [react, hp, hx]
        rw [hr]
        refine .stays ?_ ?_ s.unread_settle fun _ => hp
        · rw [next_settle]
          exact hm
        · rw [next_settle]
    | held op hold =>
      have hr : s.react none = ⟨s, []⟩ := react_none_of_held (by rw [hp]; rfl)
      rw [hr]
      exact .stays hm rfl unread_nil id
    | _ =>
      have hr : s.react none = ⟨s, []⟩ := by simp [react, hp]
      rw [hr]
      exact .stays hm rfl unread_nil id
  | some q =>
    by_cases hg : s.phase = .gone
    · have hn : (s.react (some q)).next = s := by simp [react, hg]
      refine .stays (by rw [hn]; exact hm) (by rw [hn]) (s.unread_react q) ?_
      rw [hn]
      exact id
    · -- the rest of the reaction neither ends the pause nor takes it up again
      by_cases hk : (s.take q).next.mode = .paused
      · obtain ⟨hn, hx, hy⟩ := react_of_pause_kept h hf ht hm hg hk
        exact .stays hn hx (s.unread_react q) hy
      · have hq (hl : s.leaving = false) : q.endsPause = true := by
          cases hq : q.endsPause with
          | true => rfl
          | false => exact absurd (mode_take_of_paused ht h.announced hm hl hq) hk
        have hu := s.unread_react q
        have hn := react_of_pause_ended h hf hg hk
        obtain ⟨t, -, he⟩ := s.moves_take q hg
        rw [he] at hu hn ⊢
        exact .ends hq hk hn hu

/-- What has happened in a pause so far: nothing was fetched, or one instruction, which the pause came before. -/
inductive Lull (s t : Sequencer μ) (es : List Event) : Prop where
  | nothing : Unread es → t.processor = s.processor → (t.phase = .gather → s.phase = .gather) → Lull s t es
  | once {op : Opcode} : s.phase = .gather → s.processor.decode.1 = .ok op →
      t.processor = s.processor.decode.2 → es.filter Event.isFetch = [.note (.decoded op)] →
      t.phase ≠ .gather → Lull s t es

theorem Lull.trans {t u : Sequencer μ} {es fs : List Event} (h : s.Lull t es) (k : t.Lull u fs) :
    s.Lull u (es ++ fs) := by
  cases h with
  | nothing he hp hg =>
    cases k with
    | nothing hf hq hx => exact .nothing (by simp [he, hf]) (hq.trans hp) fun hu => hg (hx hu)
    | once hx hd hq hf hu =>
      rw [hp] at hd hq
      exact .once (hg hx) hd hq (by simp [he.filter_eq_nil, hf]) hu
  | once hx hd hp he hg =>
    cases k with
    | nothing hf hq hu => exact .once hx hd (hq.trans hp) (by simp [he, hf.filter_eq_nil]) fun hy => hg (hu hy)
    | once hy => exact absurd hy hg

theorem Pausing.lull {o : Option Request} {r : Reaction μ} (h : s.Pausing o r) (hm : r.next.mode = .paused) :
    s.Lull r.next r.events := by
  cases h with
  | stays hn hp hu hg => exact .nothing hu hp hg
  | fetches hp hd hn hq hf hg => exact .once hp hd hq hf hg
  | faults hp hd hn => simp [hn] at hm
  | ends hq hk hn hu => exact absurd hm hn

end Sequencer

namespace Course

variable {μ : Type} [Bus μ]

theorem pausing_follow (p : Processor μ) (offers : List (Option Request)) (o : Option Request)
    (hm : ((ofProcessor p).follow offers).now.mode = .paused) :
    let s := ((ofProcessor p).follow offers).now
    s.Pausing o (s.react o) :=
  Sequencer.pausing_react (watched p offers).1 (fits_follow p offers) (tidy_follow p offers).1 hm o

theorem lull_follow (p : Processor μ) (offers later : List (Option Request))
    (h : ∀ n, (((ofProcessor p).follow offers).follow (later.take n)).now.mode = .paused) :
    let c := (ofProcessor p).follow offers
    ∃ es, (c.follow later).told = c.told ++ es ∧ c.now.Lull (c.follow later).now es := by
  induction later generalizing offers with
  | nil => exact ⟨[], by simp, .nothing unread_nil rfl id⟩
  | cons o os ih =>
    have hn := follow_append (ofProcessor p) offers [o]
    rw [follow_cons, follow_nil] at hn
    have hs := (pausing_follow p offers o (h 0)).lull (h 1)
    obtain ⟨es, ht, hl⟩ := ih (offers ++ [o]) fun n => by
      rw [hn]
      exact h (n + 1)
    rw [hn] at ht hl
    refine ⟨_, ?_, hs.trans hl⟩
    rw [follow_cons, ht, told_meet, List.append_assoc]

/-- From the moment on that the mode is paused, and as long as it is so, one instruction is fetched at most: its
code is read once, before the pause is looked at, which has to be taken while requests are gathered. With an
instruction in hand nothing is read and nothing told of a fetch. Where there is no instruction to be fetched, the fault
that is met ends the pause, and is told with its alert; else only a request ends it, and without a shutdown before only
one of those that are there for it. -/
theorem pause_fetches_once {ν : Type} [Bus ν] (p : Processor (Traced ν)) (offers later : List (Option Request))
    (h : ∀ n, (((ofProcessor p).follow offers).follow (later.take n)).now.mode = .paused) :
    let c := (ofProcessor p).follow offers
    let d := c.follow later
    let m := c.now.processor
    let code := (Bus.read m.bus.unit m.regs.pc).1
    let fault : Fault := ⟨⟨code⟩, m.regs.pc⟩
    let read : Processor (Traced ν) :=
      { m with bus := ⟨(Bus.read m.bus.unit m.regs.pc).2, m.bus.accesses.push (.read m.regs.pc code)⟩ }
    (∃ es, d.told = c.told ++ es ∧
      (Unread es ∧ d.now.processor = m ∨
        c.now.phase = .gather ∧ d.now.processor = read ∧ m.decode.1 = .ok ⟨code⟩ ∧
          es.filter Event.isFetch = [.note (.decoded ⟨code⟩)])) ∧
    ∀ o, (d.meet o).now.mode ≠ .paused →
      (∃ q t, o = some q ∧ (some .shutdown ∉ offers ++ later → q.endsPause = true) ∧
        d.now.react o = (d.now.take q).andThen (fun _ => t) ∧ (d.now.take q).next.mode ≠ .paused ∧
        (d.now.take q).next.processor.bus = d.now.processor.bus ∧ Unread (d.now.react o).events) ∨
      o = none ∧ c.now.phase = .gather ∧ d.now.processor = m ∧ m.decode.1 = .error fault ∧
        (d.meet o).now.mode = .halted ∧ (d.meet o).now.processor = read ∧ (d.meet o).now.fault = some fault ∧
        (d.now.react o).events.filter Event.isFetch =
          [.note (.faulted fault m.regs),
            .alert ("INSTRUCTION: " ++ code.figures ++ "\nAt ROM Offset: " ++ m.regs.pc.figures), .entered .halted] := by
  intro c d m code fault read
  obtain ⟨es, ht, hl⟩ := lull_follow p offers later h
  refine ⟨⟨es, ht, ?_⟩, ?_⟩
  · cases hl with
    | nothing hu hp hg => exact .inl ⟨hu, hp⟩
    | once hp hd hq hf hg =>
      obtain ⟨rfl, -⟩ := Processor.next_of_ok hd
      exact .inr ⟨hp, hq, hd, hf⟩
  · intro o hn
    have hd : d = (ofProcessor p).follow (offers ++ later) := (follow_append _ _ _).symm
    have hm : d.now.mode = .paused := by simpa [d] using h later.length
    have hs : d.now.Pausing o (d.now.react o) := by
      rw [hd] at hm ⊢
      exact pausing_follow p (offers ++ later) o hm
    rw [now_meet] at hn ⊢
    generalize d.now.react o = r at hs hn ⊢
    cases hs with
    | stays hx => exact absurd hx hn
    | fetches hp hc hx => exact absurd hx hn
    | faults hp hc hx hq hf he =>
      cases hl with
      | nothing hu hy hg =>
        rw [hy] at hc hq he
        obtain ⟨rfl, -⟩ := Processor.next_of_error hc
        rw [Fault.message_eq] at he
        exact .inr ⟨rfl, hg hp, hy, hc, hx, hq, hf, he⟩
      | once hy hz hw hf hg =>
        -- with an instruction held back there is no more gathering, so there is nothing to be fetched
        exact absurd hp hg
    | ends hq hk hx hu =>
      have hl (hs : some .shutdown ∉ offers ++ later) : d.now.leaving = false := by
        rw [hd]
        exact staying_follow rfl hs
      exact .inl ⟨_, _, rfl, fun hs => hq (hl hs), rfl, hk, d.now.bus_take _, hu⟩

/-- A breakpoint holds the first instruction, and the run is paused meanwhile: a step that is granted then reads
nothing, and a stop ends the pause. Paused before a hole, the run ends with the fault. -/
theorem pause_fetches_once_at_breakpoint :
    let c := (ofProcessor { bus := (⟨Ram.empty, #[]⟩ : Traced Ram) }).follow
      [some (.addBreakpoint 0x0100), some (.start false), none, some (.adjust .pause)]
    let later : List (Option Request) := [some (.adjust .singleStep), none, some (.queryBreakpoint 0x0100)]
    let e := (ofProcessor { bus := (⟨Ram.empty.set 0x0100 0xD3, #[]⟩ : Traced Ram) }).follow
      [some (.start false), some (.adjust .pause)]
    (∀ n, (c.follow (later.take n)).now.mode = .paused) ∧
      (c.follow later).now.processor = c.now.processor ∧
      (∃ es, (c.follow later).told = c.told ++ es ∧ Unread es) ∧
      Unread ((c.follow later).now.react (some .stop)).events ∧
      e.now.mode = .paused ∧ (e.meet none).now.fault = some ⟨⟨0xD3⟩, 0x0100⟩ ∧
      (e.now.react none).events.filter Event.isFetch =
        [.note (.faulted ⟨⟨0xD3⟩, 0x0100⟩ .powerUp), .alert "INSTRUCTION: 0xD3\nAt ROM Offset: 0x0100",
          .entered .halted] := by
  intro c later e
  have h : ∀ n, (c.follow (later.take n)).now.mode = .paused := by
    intro n
    rcases n with _ | _ | _ | _ | n <;> rfl
  have he : ∀ n, (e.follow ([].take n)).now.mode = .paused := by
    intro n
    rw [List.take_nil]
    rfl
  have hp : c.now.phase ≠ .gather := by decide
  obtain ⟨⟨es, ht, hc⟩, hx⟩ := pause_fetches_once _ _ later h
  obtain ⟨hu, hq⟩ := hc.resolve_right fun hx => hp hx.1
  obtain ⟨-, -, -, -, -, -, -, hs⟩ := (hx (some .stop) (by decide)).resolve_right fun hx => hp hx.2.1
  obtain ⟨-, -, -, -, -, -, hf, hk⟩ := ((pause_fetches_once _ _ [] he).2 none (by decide)).resolve_left
    fun ⟨_, _, hn, _⟩ => nomatch hn
  have hr : (Bus.read e.now.processor.bus.unit e.now.processor.regs.pc).1 = 0xD3 :=
    (Ram.get_set _ _ _ _).trans (if_pos rfl)
  have hy : "INSTRUCTION: " ++ Byte.figures 0xD3 ++ "\nAt ROM Offset: " ++ Word.figures 0x0100 =
      "INSTRUCTION: 0xD3\nAt ROM Offset: 0x0100" := by decide
  simp only [follow_nil] at hf hk
  refine ⟨h, hq, ⟨es, ht, hu⟩, hs, rfl, ?_, ?_⟩
  · rw [hf, hr]
    rfl
  · rw [hk, hr, ← hy]
    rfl

/-- With a hole at the program counter a pause that is taken before the first instruction does not keep the
sequencer from the fault. -/
theorem paused_before_hole :
    let c := (ofProcessor { bus := Ram.empty.set 0x0100 0xD3 }).follow
      [some (.start false), some (.adjust .pause)]
    c.now.mode = .paused ∧ (c.meet none).now.mode = .halted ∧
      .alert "INSTRUCTION: 0xD3\nAt ROM Offset: 0x0100" ∈ (c.meet none).told.drop c.told.length := by
  decide

end Course

end Sm83
