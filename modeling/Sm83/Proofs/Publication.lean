import Sm83.Bus.Ram
import Sm83.Proofs.Consistency

/-!
What others can read is up to date, with one exception. Only a change of mode and a commit are published, so a
reset taken before any mode was announced changes the registers and nobody is told.
-/

set_option autoImplicit false

namespace Sm83

def Registers.afterReset : Registers :=
  { af := 0x0130, bc := 0x0013, de := 0x00D8, hl := 0x014D, sp := 0xFFFE, pc := 0x0100 }

namespace Processor

variable {μ : Type}

theorem regs_reset (p : Processor μ) : p.reset.regs = .afterReset := rfl

@[simp] theorem reset_reset (p : Processor μ) : p.reset.reset = p.reset := rfl

end Processor

namespace Sequencer

variable {μ : Type} {s : Sequencer μ} {m : Mode} {r : Request}

theorem not_taken_announceRun {x : Request} : .note (.taken x) ∉ s.announceRun.events := by
  intro h
  rcases mem_announceRun h with h | h <;> cases h

theorem not_taken_announce {x : Request} : .note (.taken x) ∉ (s.announce m).events := by
  intro h
  rcases mem_announce h with h | h <;> cases h

theorem not_taken_obey {x : Request} : .note (.taken x) ∉ (s.obey r).events := by
  intro h
  have ho := s.obeyed r
  generalize s.obey r = t at h ho
  cases ho with
  | heard run breakpoints leaving es hr he => cases he _ h
  | run run hr => exact not_taken_announceRun h
  | stop => exact not_taken_announce h
  | reset => exact not_taken_announce h

theorem not_taken_settle {x : Request} : .note (.taken x) ∉ s.settle.events := by
  intro h
  cases mem_settle h

theorem not_taken_finish {x : Request} {c : Completion} : .note (.taken x) ∉ (s.finish c).events := by
  intro h
  rcases mem_finish h with h | h | h <;> cases h

theorem not_taken_lock {x : Request} {f : Fault} : .note (.taken x) ∉ (s.lock f).events := by
  intro h
  rcases mem_lock h with h | h | h | h | h <;> cases h

theorem not_taken_check [Bus μ] {x : Request} : .note (.taken x) ∉ s.check.events := by
  intro h
  cases mem_check h

theorem not_taken_retire [Bus μ] {x : Request} {op : Opcode} : .note (.taken x) ∉ (s.retire op).events := by
  intro h
  rcases mem_retire h with h | h | h
  · cases h
  · rcases mem_notes h with ⟨w, hw⟩ | ⟨n, hn⟩
    · cases hw
    · cases hn
  · cases h

theorem not_taken_move [Bus μ] {hand last : Option Opcode} {t : Reaction μ} (hm : Move s hand t last)
    {x : Request} : .note (.taken x) ∉ t.events := by
  cases hm with
  | drop r hp => cases r <;> simp [react, hp]
  | settle hs => exact not_taken_settle
  | decode hp ha hd => simpa using not_taken_check
  | lock hp ha hd => simp [not_taken_check, not_taken_lock]
  | pause ha hp => simp
  | suspend ha hp hd hr => exact not_taken_announceRun
  | release hp hr => exact not_taken_announceRun
  | commit hc => simp [commit_eq, not_taken_retire, not_taken_finish, not_taken_settle]

theorem reset_mem_take : .note (.taken .reset) ∈ (s.take r).events ↔ r = .reset := by
  have h : .note (.taken .reset) ∉ (s.obey r).events := not_taken_obey
  simp [events_take, h, eq_comm]

theorem entered_mem_take : .entered m ∈ (s.take r).events ↔ .entered m ∈ (s.obey r).events := by
  simp [events_take]

theorem published_announce (h : s.mode = m → s.published = s.status) :
    (s.announce m).next.published = (s.announce m).next.status := by
  rw [next_announce]
  by_cases hm : s.mode = m
  · subst hm
    simpa [status] using h rfl
  · simp [hm, status]

theorem published_announceRun (h : s.published = s.status) :
    s.announceRun.next.published = s.announceRun.next.status := by
  unfold announceRun
  split
  · exact published_announce fun _ => h
  · exact h

theorem published_finish (s : Sequencer μ) (r : Completion) :
    (s.finish r).next.published = (s.finish r).next.status := by
  cases ho : r.outcome <;> simp [finish, ho, publish, status]

theorem activeMode_ne_idle (s : Sequencer μ) : s.activeMode ≠ .idle := by
  intro h
  have ha := s.isActive_activeMode
  simp [h, Mode.isActive] at ha

theorem Announced.ne_idle (h : s.Announced) (ha : s.run.active = true) : s.mode ≠ .idle := by
  rw [h ha]
  exact s.activeMode_ne_idle

theorem mode_announceRun_idle (h : s.announceRun.next.mode = .idle) :
    s.run.active = false ∧ s.mode = .idle := by
  rw [mode_announceRun] at h
  cases ha : s.run.active with
  | true => exact absurd (by simpa [ha] using h) s.activeMode_ne_idle
  | false => exact ⟨rfl, by simpa [ha] using h⟩

/-- No mode was announced yet: the status is the first one, whatever was reset meanwhile. -/
structure Silent (p : Processor μ) (told : List Event) (s : Sequencer μ) : Prop where
  mode : s.mode = .idle
  unheard : ∀ m, .entered m ∉ told
  processor : s.processor = if .note (.taken .reset) ∈ told then p.reset else p
  fault : s.fault = none
  committed : s.committed = 0
  published : s.published = { regs := p.regs }

/-- Some mode was announced, and the status is the present one; an idle sequencer was reset. -/
structure Current (told : List Event) (s : Sequencer μ) : Prop where
  heard : ∃ m, .entered m ∈ told
  published : s.published = s.status
  idle : s.mode = .idle → s.processor.regs = .afterReset ∧ s.fault = none ∧ s.committed = 0

variable {p : Processor μ} {told : List Event}

theorem Current.append (h : Current told s) (es : List Event) : Current (told ++ es) s := by
  obtain ⟨m, hm⟩ := h.heard
  exact ⟨⟨m, by simp [hm]⟩, h.published, h.idle⟩

namespace Silent

theorem append (h : Silent p told s) {es : List Event} (he : ∀ m, .entered m ∉ es)
    (hr : .note (.taken .reset) ∉ es) : Silent p (told ++ es) s := by
  refine ⟨h.mode, ?_, ?_, h.fault, h.committed, h.published⟩
  · intro m hm
    rcases List.mem_append.1 hm with hm | hm
    · exact h.unheard m hm
    · exact he m hm
  · rw [h.processor]
    simp [hr]

theorem inactive (h : Silent p told s) (ha : s.Announced) : s.run.active = false := by
  cases hx : s.run.active with
  | false => rfl
  | true => exact absurd h.mode (ha.ne_idle hx)

theorem announce (h : Silent p told s) {run : Run} (hm : m ≠ .idle) {es : List Event}
    (he : .entered m ∈ ({ s with run }.announce m).events → .entered m ∈ es) :
    Current (told ++ es) ({ s with run }.announce m).next := by
  have hx : s.mode ≠ m := by
    rw [h.mode]
    exact hm.symm
  refine ⟨⟨m, ?_⟩, published_announce fun hy => absurd hy hx, ?_⟩
  · exact List.mem_append_right _ (he (by simp [events_announce, hx]))
  · rw [next_announce]
    exact fun hy => absurd hy hm

theorem take (h : Silent p told s) (r : Request) :
    Silent p (told ++ (s.take r).events) (s.take r).next ∨
      Current (told ++ (s.take r).events) (s.take r).next := by
  have hr : .note (.taken .reset) ∈ (s.take r).events ↔ r = .reset := reset_mem_take
  have he : ∀ m, .entered m ∈ (s.take r).events ↔ .entered m ∈ (s.obey r).events := fun m => entered_mem_take
  rw [next_take]
  have ho := s.obeyed r
  generalize (s.take r).events = es at hr he ⊢
  generalize s.obey r = t at he ho ⊢
  cases ho with
  | heard run breakpoints leaving fs hx hf =>
    have hs : Silent p told { s with run, breakpoints, leaving } :=
      ⟨h.mode, h.unheard, h.processor, h.fault, h.committed, h.published⟩
    refine .inl (hs.append ?_ ?_)
    · intro m hm
      cases hf _ ((he m).1 hm)
    · rw [hr]
      exact hx
  | run run hx =>
    by_cases ha : run.active = true
    · have hn : { s with run }.announceRun = { s with run }.announce { s with run }.activeMode := by
        simp [announceRun, ha]
      rw [hn] at he ⊢
      exact .inr (h.announce (activeMode_ne_idle _) (he _).2)
    · have hn : { s with run }.announceRun = ⟨{ s with run }, []⟩ := by simp [announceRun, ha]
      rw [hn] at he ⊢
      have hs : Silent p told { s with run } :=
        ⟨h.mode, h.unheard, h.processor, h.fault, h.committed, h.published⟩
      exact .inl (hs.append (fun m hm => by simpa using (he m).1 hm) (by rw [hr]; exact hx))
  | stop => exact .inr (h.announce (by simp) (he _).2)
  | reset =>
    -- no mode is announced, being idle already
    have hm : .note (.taken .reset) ∈ es := hr.2 rfl
    refine .inl ⟨?_, ?_, ?_, ?_, ?_, ?_⟩
    · simp [next_announce]
    · intro m hx
      rcases List.mem_append.1 hx with hx | hx
      · exact h.unheard m hx
      · have hx := (he m).1 hx
        simp [events_announce, h.mode] at hx
    · have hp : s.processor.reset = p.reset := by
        rw [h.processor]
        split <;> simp
      simp [next_announce, hm, hp]
    · simp [next_announce]
    · simp [next_announce]
    · simp [next_announce, h.mode, h.published]

theorem move [Bus μ] {hand last : Option Opcode} {t : Reaction μ} (h : Silent p told s) (ha : s.Announced)
    (hm : Move s hand t last) : Silent p (told ++ t.events) t.next := by
  have hi := h.inactive ha
  have ht : .note (.taken .reset) ∉ t.events := not_taken_move hm
  cases hm with
  | drop r hp =>
    have hn : (s.react (some r)).next = s := by simp [react, hp]
    rw [hn]
    refine h.append ?_ ht
    intro m
    cases r <;> simp [react, hp]
  | settle hs =>
    have hx : Silent p (told ++ s.settle.events) s := h.append (fun _ => not_entered_settle) ht
    rw [next_settle]
    exact ⟨hx.mode, hx.unheard, hx.processor, hx.fault, hx.committed, hx.published⟩
  | decode hp hx hd => simp [hi] at hx
  | lock hp hx hd => simp [hi] at hx
  | pause hx hp => simp [hi] at hx
  | suspend hx hp hd hr => simp [hi] at hx
  | release hp hr =>
    have hn : { s with phase := .gather }.announceRun = ⟨{ s with phase := .gather }, []⟩ := by
      simp [announceRun, hi]
    rw [hn, List.append_nil]
    exact ⟨h.mode, h.unheard, h.processor, h.fault, h.committed, h.published⟩
  | commit hc => exact absurd hc.active (by simp [hi])

end Silent

namespace Current

theorem announceRun (h : Current told s) : Current told s.announceRun.next := by
  refine ⟨h.heard, published_announceRun h.published, fun hm => ?_⟩
  obtain ⟨ha, hx⟩ := mode_announceRun_idle hm
  simpa [Sequencer.announceRun, ha] using h.idle hx

theorem announce (h : Current told s) (hm : m ≠ .idle) : Current told (s.announce m).next := by
  refine ⟨h.heard, published_announce fun _ => h.published, ?_⟩
  rw [next_announce]
  exact fun hx => absurd hx hm

theorem obey (h : Current told s) (r : Request) : Current told (s.obey r).next := by
  have ho := s.obeyed r
  generalize s.obey r = t at ho ⊢
  cases ho with
  | heard run breakpoints leaving es hr he => exact ⟨h.heard, h.published, h.idle⟩
  | run run hr =>
    have hx : Current told { s with run } := ⟨h.heard, h.published, h.idle⟩
    exact hx.announceRun
  | stop =>
    have hx : Current told { s with run := {} } := ⟨h.heard, h.published, h.idle⟩
    exact hx.announce (by simp)
  | reset =>
    refine ⟨h.heard, published_announce ?_, ?_⟩
    · intro hm
      have hm : s.mode = .idle := hm
      obtain ⟨hr, hf, hc⟩ := h.idle hm
      simp [h.published, status, hr, hf, hc, s.processor.regs_reset]
    · simp [next_announce, s.processor.regs_reset]

theorem lock (h : Current told s) (hm : s.mode ≠ .halted) (f : Fault) : Current told (s.lock f).next := by
  have hp := published_announce (s := { s with run := {}, fault := some f }) (m := .halted)
    fun hx => absurd hx hm
  refine ⟨h.heard, ?_, ?_⟩
  · simpa [Sequencer.lock, next_settle, status] using hp
  · simp [Sequencer.lock, next_settle, next_announce]

theorem move [Bus μ] {hand last : Option Opcode} {t : Reaction μ} (h : Current told s) (ha : s.Announced)
    (hm : Move s hand t last) : Current (told ++ t.events) t.next := by
  refine append (s := t.next) ?_ t.events
  cases hm with
  | drop r hp => simpa [react, hp] using h
  | settle hs =>
    rw [next_settle]
    exact ⟨h.heard, h.published, h.idle⟩
  | decode hp hx hd => exact ⟨h.heard, h.published, h.idle⟩
  | lock hp hx hd =>
    have hc : Current told s.check.next := ⟨h.heard, h.published, h.idle⟩
    exact hc.lock (ha.ne_halted hx) _
  | pause hx hp => exact ⟨h.heard, h.published, h.idle⟩
  | suspend hx hp hd hr =>
    exact announceRun (s := { s with phase := .held _ .step }) ⟨h.heard, h.published, h.idle⟩
  | release hp hr =>
    exact announceRun (s := { s with phase := .gather }) ⟨h.heard, h.published, h.idle⟩
  | @commit op hc =>
    have hi := ha.ne_idle hc.active
    rw [commit_eq]
    refine ⟨h.heard, ?_, ?_⟩
    · have hp := published_finish (s.retire op).next (s.processor.execute op).1
      simpa [next_settle, status] using hp
    · intro hx
      have hx : ((s.retire op).next.finish (s.processor.execute op).1).next.mode = .idle := by
        simpa [next_settle] using hx
      rw [mode_finish] at hx
      split at hx
      · cases hx
      · exact absurd hx hi

end Current

theorem mode_react_reset [Bus μ] (s : Sequencer μ) (h : s.phase ≠ .gone) :
    (s.react (some .reset)).next.mode = .idle := by
  have ht : (s.take .reset).next.mode = .idle := by simp [next_take, obey, next_announce]
  have ha : (s.take .reset).next.run.active = false := by simp [next_take, run_obey]
  by_cases hp : s.phase = .gather
  · simpa [react, hp] using ht
  · rw [next_react_of_inactive ha hp h, next_settle]
    exact ht

end Sequencer

namespace Course

variable {μ : Type} [Bus μ]

theorem silent_or_current (p : Processor μ) (offers : List (Option Request)) :
    let c := (ofProcessor p).follow offers
    Sequencer.Silent p c.told c.now ∨ Sequencer.Current c.told c.now := by
  refine And.left (follow_announced
    (J := fun told s => Sequencer.Silent p told s ∨ Sequencer.Current told s) p ?_ ?_ ?_ offers)
  · exact .inl ⟨rfl, by simp, by simp [Sequencer.ofProcessor], rfl, rfl, rfl⟩
  · intro told s r h _
    rcases h with h | h
    · exact h.take r
    · rw [Sequencer.next_take]
      exact .inr ((h.obey r).append _)
  · intro told s hand last r h ha hm
    rcases h with h | h
    · exact .inl (h.move ha hm)
    · exact .inr (h.move ha hm)

/-- The status that others can read is the present one as soon as a mode was announced, and before that until a
reset is taken; only a reset that comes first leaves the old registers to be read. -/
theorem published_follow (p : Processor μ) (offers : List (Option Request)) :
    let c := (ofProcessor p).follow offers
    ((∃ m, .entered m ∈ c.told) ∨ .note (.taken .reset) ∉ c.told → c.now.published = c.now.status) ∧
    ((∀ m, .entered m ∉ c.told) → .note (.taken .reset) ∈ c.told →
      c.now.published = { regs := p.regs } ∧ c.now.status = { regs := .afterReset }) ∧
    (c.now.phase ≠ .gone → (∃ m, .entered m ∈ c.told) →
      (c.meet (some .reset)).now.published = { regs := .afterReset }) := by
  intro c
  refine ⟨?_, ?_, ?_⟩
  · intro h
    rcases silent_or_current p offers with hs | hc
    · have hr : .note (.taken .reset) ∉ c.told := h.resolve_left fun ⟨m, hm⟩ => hs.unheard m hm
      have hp : c.now.processor = p := by simpa [c, hr] using hs.processor
      rw [hs.published, Sequencer.status, hs.mode, hs.fault, hs.committed, hp]
    · exact hc.published
  · intro hm hr
    rcases silent_or_current p offers with hs | hc
    · have hp : c.now.processor = p.reset := by simpa [c, hr] using hs.processor
      refine ⟨hs.published, ?_⟩
      rw [Sequencer.status, hs.mode, hs.fault, hs.committed, hp, p.regs_reset]
    · obtain ⟨m, hx⟩ := hc.heard
      exact absurd hx (hm m)
  · -- a reset behind any announcement announces idle, and so is published
    intro hg ⟨m, hm⟩
    have hn : (ofProcessor p).follow (offers ++ [some .reset]) = c.meet (some .reset) := by
      simp [c, follow]
    have hc := silent_or_current p (offers ++ [some .reset])
    rw [hn] at hc
    have hi : (c.meet (some .reset)).now.mode = .idle := c.now.mode_react_reset hg
    have hx : .entered m ∈ (c.meet (some .reset)).told := List.mem_append_left _ hm
    rcases hc with hs | hc
    · exact absurd hx (hs.unheard m)
    · obtain ⟨hr, hf, hk⟩ := hc.idle hi
      rw [hc.published, Sequencer.status, hi, hr, hf, hk]

/-- A reset that comes first is not published: the sequencer waits, and the registers to be read are old. -/
theorem reset_at_rest_unpublished :
    let s := ((ofProcessor { bus := Ram.empty }).follow [some .reset]).now
    s.phase = .rest ∧ s.processor.regs.af = 0x0130 ∧ s.published.regs.af = 0x01B0 := by
  intro s
  exact ⟨rfl, rfl, rfl⟩

end Course

end Sm83
