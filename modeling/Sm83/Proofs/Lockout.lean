import Sm83.Proofs.Departure
import Sm83.Proofs.Fetch
import Sm83.Proofs.FieldDecoder
import Sm83.Proofs.Publication

/-!
A fault locks the sequencer. It is told once, in the log and by an alert, when the sequencer becomes halted; from
then on nothing but a reset is of any effect, breakpoints apart.
-/

set_option autoImplicit false

namespace Sm83

namespace Event

def isAlert : Event → Bool
  | .alert _ => true
  | _ => false

def isError : Event → Bool
  | .note n => n.level == .error
  | _ => false

end Event

/-- There are as many alerts as errors, and as many as times that the sequencer became halted. -/
structure Balanced (es : List Event) : Prop where
  alerts : es.countP Event.isAlert = es.count (.entered .halted)
  errors : es.countP Event.isError = es.count (.entered .halted)

theorem Event.isError_iff {e : Event} : e.isError = true ↔ ∃ f regs, e = .note (.faulted f regs) := by
  cases e with
  | note n => cases n <;> simp [isError, Note.level]
  | _ => simp [isError]

theorem Unread.filter_isError {es : List Event} (h : Unread es) : es.filter Event.isError = [] := by
  refine List.filter_eq_nil_iff.2 fun e hm he => ?_
  obtain ⟨f, regs, rfl⟩ := Event.isError_iff.1 he
  cases h _ hm

theorem Unread.balanced {es : List Event} (h : Unread es) : Balanced es := by
  have hh : es.count (.entered .halted) = 0 := by
    rw [List.count_eq_zero]
    intro hm
    cases h _ hm
  refine ⟨?_, ?_⟩
  · rw [hh, List.countP_eq_zero]
    intro e hm hx
    have hf := h e hm
    cases e <;> simp_all [Event.isAlert, Event.isFetch]
  · rw [hh, List.countP_eq_length_filter, h.filter_isError, List.length_nil]

theorem Balanced.append {es fs : List Event} (h : Balanced es) (k : Balanced fs) : Balanced (es ++ fs) := by
  refine ⟨?_, ?_⟩
  · rw [List.countP_append, List.count_append, h.alerts, k.alerts]
  · rw [List.countP_append, List.count_append, h.errors, k.errors]

/-- Whenever the sequencer became halted, a reset was taken after it. -/
def Released (es : List Event) : Prop :=
  ∀ before after, es = before ++ .entered .halted :: after → .note (.taken .reset) ∈ after

/-- Before the sequencer becomes halted once more, a reset is taken. -/
def Spaced (es : List Event) : Prop :=
  ∀ before after, es = before ++ .entered .halted :: after → Released before

theorem Unread.not_halted {es : List Event} (h : Unread es) : .entered .halted ∉ es := fun hm => by
  cases h _ hm

section

variable {es fs before after : List Event}

theorem halted_split (h : .entered .halted ∉ fs) (he : es ++ fs = before ++ .entered .halted :: after) :
    ∃ between, es = before ++ .entered .halted :: between ∧ after = between ++ fs := by
  rcases List.append_eq_append_iff.1 he with ⟨later, hb, hf⟩ | ⟨between, hs, ha⟩
  · exact absurd (by simp [hf]) h
  · cases between with
    | nil =>
      rw [List.nil_append] at ha
      exact absurd (by simp [← ha]) h
    | cons e between =>
      obtain ⟨hx, hy⟩ := List.cons.inj ha
      exact ⟨between, by rw [hs, ← hx], hy⟩

theorem Released.append (h : Released es) (hf : .entered .halted ∉ fs) : Released (es ++ fs) := by
  intro before after he
  obtain ⟨between, hb, ha⟩ := halted_split hf he
  rw [ha]
  exact List.mem_append_left _ (h before between hb)

theorem released_of_reset (es : List Event) (hf : .entered .halted ∉ fs) (hr : .note (.taken .reset) ∈ fs) :
    Released (es ++ fs) := by
  intro before after he
  obtain ⟨between, hb, ha⟩ := halted_split hf he
  rw [ha]
  exact List.mem_append_right _ hr

theorem Spaced.append (h : Spaced es) (hf : .entered .halted ∉ fs) : Spaced (es ++ fs) := by
  intro before after he
  obtain ⟨between, hb, -⟩ := halted_split hf he
  exact h before between hb

theorem Spaced.halt (h : Spaced es) (hr : Released es) (hf : .entered .halted ∉ fs) :
    Spaced (es ++ .entered .halted :: fs) := by
  intro before after he
  have hx : (es ++ [.entered .halted]) ++ fs = before ++ .entered .halted :: after := by simpa using he
  obtain ⟨between, hb, -⟩ := halted_split hf hx
  rcases List.eq_nil_or_concat between with rfl | ⟨rest, e, rfl⟩
  · have hy : es = before := List.append_inj_left' hb rfl
    rw [← hy]
    exact hr
  · have hy : es ++ [.entered .halted] = (before ++ .entered .halted :: rest) ++ [e] := by simpa using hb
    exact h before rest (List.append_inj_left' hy rfl)

end

namespace Sequencer

variable {μ : Type} {s t u : Sequencer μ}

/-- Nothing has changed but the breakpoints, and whether the sequencer is leaving. -/
def Stalls (s t : Sequencer μ) : Prop :=
  t = { s with breakpoints := t.breakpoints, leaving := t.leaving, phase := t.phase }

theorem Stalls.trans (h : s.Stalls t) (k : t.Stalls u) : s.Stalls u := by
  unfold Stalls at h k ⊢
  rw [k, h]

theorem Stalls.mode_eq (h : s.Stalls t) : t.mode = s.mode := by rw [h]

theorem stalls_obey (ha : s.run.active = false) (hm : s.mode = .halted) {r : Request} (hr : r ≠ .reset) :
    s.Stalls (s.obey r).next ∧ Event.shown (s.obey r).events = [] := by
  cases r with
  | start debug =>
    have ho : s.obey (.start debug) = s.saying .lockedOut := by simp [obey, ha, hm]
    rw [ho]
    exact ⟨rfl, rfl⟩
  | stop => simp [obey, ha, Stalls, Event.shown]
  | adjust a => simp [obey, ha, Stalls, Event.shown, Event.isShown]
  | reset => exact absurd rfl hr
  | addBreakpoint a => simp only [obey]; split <;> exact ⟨rfl, rfl⟩
  | removeBreakpoint a => simp only [obey]; split <;> exact ⟨rfl, rfl⟩
  | queryBreakpoint a => exact ⟨rfl, rfl⟩
  | shutdown => simp [obey, Stalls, Event.shown, ← ha]

theorem shown_take (s : Sequencer μ) (r : Request) :
    Event.shown (s.take r).events = Event.shown (s.obey r).events := rfl

theorem stalls_settle (s : Sequencer μ) : s.Stalls s.settle.next ∧ Event.shown s.settle.events = [] := by
  rw [next_settle, events_settle]
  refine ⟨rfl, ?_⟩
  split <;> rfl

theorem stalls_take (ha : s.run.active = false) (hm : s.mode = .halted) {r : Request} (hr : r ≠ .reset) :
    s.Stalls (s.take r).next ∧ Event.shown (s.take r).events = [] := by
  rw [next_take, shown_take]
  exact stalls_obey ha hm hr

theorem Announced.inactive_of_halted (h : s.Announced) (hm : s.mode = .halted) : s.run.active = false := by
  cases ha : s.run.active with
  | false => rfl
  | true => exact absurd hm (h.ne_halted ha)

theorem mode_take_of_halted (h : s.Announced) (hm : s.mode = .halted) {r : Request} (hr : r ≠ .reset) :
    (s.take r).next.mode = .halted := by
  rw [(stalls_take (h.inactive_of_halted hm) hm hr).1.mode_eq, hm]

theorem unread_closed (s : Sequencer μ) : Unread (if s.leaving then [.note .closed] else []) := by
  split <;> simp [Event.isFetch]

theorem balanced_lock (h : s.mode ≠ .halted) (f : Fault) : Balanced (s.lock f).events := by
  have hx : Balanced [.note (.faulted f s.processor.regs), .alert f.message,
      .note (.changed s.mode .halted), .entered .halted] := ⟨rfl, rfl⟩
  rw [events_lock h]
  exact hx.append s.unread_closed.balanced

theorem errors_lock (h : s.mode ≠ .halted) (f : Fault) :
    (s.lock f).events.filter Event.isError = [.note (.faulted f s.processor.regs)] := by
  rw [events_lock h, List.filter_append, s.unread_closed.filter_isError]
  rfl

theorem alert_lock {f : Fault} {text : String} (h : .alert text ∈ (s.lock f).events) : text = f.message := by
  rcases mem_lock h with h | h | h | h | h
  case inr.inl => exact Event.alert.inj h
  all_goals cases h

theorem spaced_lock {told : List Event} (hs : Spaced told) (hr : Released told) (h : s.mode ≠ .halted)
    (f : Fault) : Spaced (told ++ (s.lock f).events) := by
  have he : .entered .halted ∉ [Event.note (.faulted f s.processor.regs), .alert f.message,
      .note (.changed s.mode .halted)] := by simp
  have hx := (hs.append he).halt (hr.append he) s.unread_closed.not_halted
  rw [events_lock h]
  simpa using hx

variable [Bus μ]

theorem stalls_react (h : s.Announced) (hf : s.phase.Fits s.run) (hm : s.mode = .halted) {o : Option Request}
    (ho : o ≠ some .reset) : s.Stalls (s.react o).next ∧ Event.shown (s.react o).events = [] := by
  have ha := h.inactive_of_halted hm
  cases o with
  | none =>
    cases hp : s.phase with
    | gather =>
      have hr : s.react none = s.settle := by simp [react, hp, ha]
      rw [hr]
      exact s.stalls_settle
    | held op hold =>
      rw [react_none_of_held (by rw [hp]; rfl)]
      exact ⟨rfl, rfl⟩
    | rest =>
      have hr : s.react none = ⟨s, []⟩ := by simp [react, hp]
      rw [hr]
      exact ⟨rfl, rfl⟩
    | gone =>
      have hr : s.react none = ⟨s, []⟩ := by simp [react, hp]
      rw [hr]
      exact ⟨rfl, rfl⟩
  | some r =>
    have hr : r ≠ .reset := fun hr => ho (by rw [hr])
    obtain ⟨ht, he⟩ := stalls_take ha hm hr
    cases hp : s.phase with
    | rest =>
      obtain ⟨hs, hk⟩ := (s.take r).next.stalls_settle
      simp only [react, hp]
      exact ⟨ht.trans hs, by simp [he, hk]⟩
    | gather =>
      simp only [react, hp]
      exact ⟨ht, he⟩
    | held op hold => simpa [hp, Phase.held?] using hf.held?_eq_none ha
    | gone =>
      have hn : (s.react (some r)).next = s := by simp [react, hp]
      rw [hn]
      refine ⟨rfl, ?_⟩
      cases r <;> simp [react, hp, Event.shown, Event.isShown]

end Sequencer

theorem Move.mode_of_halted {μ : Type} [Bus μ] {s : Sequencer μ} {hand last : Option Opcode} {r : Reaction μ}
    (hm : Move s hand r last) (h : s.Announced) (hs : s.mode = .halted) : r.next.mode = .halted := by
  have ha := h.inactive_of_halted hs
  cases hm with
  | drop r hp => simpa [Sequencer.react, hp] using hs
  | settle => simpa [Sequencer.next_settle] using hs
  | decode hp hx => simp [ha] at hx
  | lock hp hx => simp [ha] at hx
  | pause hx => simp [ha] at hx
  | suspend hx => simp [ha] at hx
  | release hp hr => simpa [Sequencer.mode_announceRun, ha] using hs
  | commit hc => exact absurd hc.active (by simp [ha])

namespace Course

variable {μ : Type} [Bus μ]

theorem balanced_follow (p : Processor μ) (offers : List (Option Request)) :
    let c := (ofProcessor p).follow offers
    Balanced c.told ∧ Spaced c.told ∧ (c.now.mode ≠ .halted → Released c.told) := by
  have hn : ∀ before after, [] ≠ before ++ Event.entered .halted :: after := by simp
  refine And.left (follow_announced (J := fun told s =>
    Balanced told ∧ Spaced told ∧ (s.mode ≠ .halted → Released told)) p ?_ ?_ ?_ offers)
  · exact ⟨⟨rfl, rfl⟩, fun b a h => absurd h (hn b a), fun _ b a h => absurd h (hn b a)⟩
  · intro told s r ⟨hb, hs, hr⟩ ha
    have hu := s.unread_take r
    refine ⟨hb.append hu.balanced, hs.append hu.not_halted, fun hm => ?_⟩
    by_cases hx : r = .reset
    · exact released_of_reset told hu.not_halted (Sequencer.reset_mem_take.2 hx)
    · refine (hr fun hy => hm ?_).append hu.not_halted
      exact Sequencer.mode_take_of_halted ha hy hx
  · -- only the lock tells of a fault, and it is met in a run, which has a reset behind the last fault
    intro told s hand r last ⟨hb, hs, hr⟩ ha hm
    rcases hm.unread with hu | ⟨-, -, hx, ⟨op, hd, rfl⟩ | ⟨f, hd, rfl⟩⟩
    · exact ⟨hb.append hu.balanced, hs.append hu.not_halted, fun hk =>
        (hr fun hy => hk (hm.mode_of_halted ha hy)).append hu.not_halted⟩
    · have hr := hr (ha.ne_halted hx)
      have hu := s.unread_check
      have hf : .entered .halted ∉ (s.check.andThen (·.saying (.decoded op))).events := by
        simpa using hu.not_halted
      have hd : Balanced [.note (.decoded op)] := ⟨rfl, rfl⟩
      exact ⟨hb.append (hu.balanced.append hd), hs.append hf, fun _ => hr.append hf⟩
    · have hr := hr (ha.ne_halted hx)
      have hu := s.unread_check
      have hk : s.check.next.mode ≠ .halted := ha.ne_halted hx
      have hl := Sequencer.spaced_lock (hs.append hu.not_halted) (hr.append hu.not_halted) hk f
      refine ⟨hb.append (hu.balanced.append (Sequencer.balanced_lock hk f)), ?_, fun hm => ?_⟩
      · simpa using hl
      · exact absurd (by simp [Sequencer.lock, Sequencer.next_settle, Sequencer.next_announce]) hm

theorem stalls_follow (p : Processor μ) (offers later : List (Option Request))
    (hm : ((ofProcessor p).follow offers).now.mode = .halted) (hr : some .reset ∉ later) :
    let c := (ofProcessor p).follow offers
    c.now.Stalls (c.follow later).now ∧ ∃ es, (c.follow later).told = c.told ++ es ∧ Event.shown es = [] := by
  induction later generalizing offers with
  | nil => exact ⟨rfl, [], by simp, rfl⟩
  | cons o os ih =>
    obtain ⟨ho, hos⟩ : some .reset ≠ o ∧ some .reset ∉ os := by simpa using hr
    have hn := follow_append (ofProcessor p) offers [o]
    rw [follow_cons, follow_nil] at hn
    obtain ⟨hs, he⟩ := Sequencer.stalls_react (tidy_follow p offers).2 (fits_follow p offers) hm (Ne.symm ho)
    obtain ⟨hx, fs, ht, hf⟩ := ih (offers ++ [o]) (by rw [hn, now_meet, hs.mode_eq, hm]) hos
    rw [hn] at hx ht
    refine ⟨hs.trans hx, (((ofProcessor p).follow offers).now.react o).events ++ fs, ?_, ?_⟩
    · rw [follow_cons, ht, told_meet, List.append_assoc]
    · rw [Event.shown_append, he, hf]
      rfl

theorem alert_react {s : Sequencer μ} (hs : s.Announced) {o : Option Request} {text : String}
    (h : .alert text ∈ (s.react o).events) :
    s.processor.next.isHole = true ∧ text = (Fault.mk s.processor.next s.processor.regs.pc).message ∧
      (s.react o).events.filter Event.isError =
        [.note (.faulted ⟨s.processor.next, s.processor.regs.pc⟩ s.processor.regs)] ∧
      (s.react o).next.processor =
        { s.processor with bus := (Bus.read s.processor.bus s.processor.regs.pc).2 } := by
  obtain ⟨rfl, -, ha, hh, hr⟩ := Sequencer.react_of_fault h rfl (by simp)
  have hm : s.check.next.mode ≠ .halted := hs.ne_halted ha
  rw [hr, Reaction.events_andThen] at h ⊢
  have ht := Sequencer.alert_lock ((List.mem_append.1 h).resolve_left fun hc => by cases s.unread_check _ hc)
  refine ⟨hh, ht, ?_, s.check.next.processor_lock _⟩
  rw [List.filter_append, s.unread_check.filter_isError, Sequencer.errors_lock hm]
  rfl

/-- Once halted, a sequencer stays as it is and shows nothing, whatever is asked of it, until it is reset: its
breakpoints can change, and it can leave. In all that is told there are as many alerts, and as many errors, as
times that it became halted, with a reset between any two of them. An error tells of an invalid code and nothing else;
an alert, and the error beside it, name the hole at the program counter and its address by their digits, and the
processor has read the hole and done no more. -/
theorem halted_until_reset (p : Processor μ) (offers : List (Option Request)) :
    let c := (ofProcessor p).follow offers
    (∀ later, c.now.mode = .halted → some .reset ∉ later →
      let d := c.follow later
      d.now = { c.now with
        breakpoints := d.now.breakpoints
        leaving := d.now.leaving
        phase := d.now.phase } ∧
      ∃ es, d.told = c.told ++ es ∧ Event.shown es = []) ∧
    c.told.countP Event.isAlert = c.told.count (.entered .halted) ∧
    c.told.countP Event.isError = c.told.count (.entered .halted) ∧
    (∀ before between after,
      c.told = before ++ .entered .halted :: (between ++ .entered .halted :: after) →
        .note (.taken .reset) ∈ between) ∧
    (∀ e ∈ c.told, e.isError = true → ∃ f regs, e = .note (.faulted f regs)) ∧
    ∀ o text, .alert text ∈ (c.now.react o).events →
      let m := c.now.processor
      let code := (Bus.read m.bus m.regs.pc).1
      let error := Note.faulted ⟨⟨code⟩, m.regs.pc⟩ m.regs
      code ∈ Fields.holes ∧
        text = "INSTRUCTION: " ++ code.figures ++ "\nAt ROM Offset: " ++ m.regs.pc.figures ∧
        (c.now.react o).events.filter Event.isError = [.note error] ∧
        error.text = "GB CPU locked: invalid opcode " ++ code.figures ++ " at PC=" ++ m.regs.pc.figures ++
          " (" ++ m.regs.render ++ ")" ∧
        (c.now.react o).next.processor = { m with bus := (Bus.read m.bus m.regs.pc).2 } := by
  intro c
  obtain ⟨hb, hs, -⟩ := balanced_follow p offers
  refine ⟨fun later hm hr => stalls_follow p offers later hm hr, hb.alerts, hb.errors, ?_,
    fun e _ he => Event.isError_iff.1 he, ?_⟩
  · intro before between after ht
    have hx : c.told = (before ++ .entered .halted :: between) ++ .entered .halted :: after := by simp [ht]
    exact hs _ _ hx before between rfl
  · intro o text ht m code error
    obtain ⟨hh, hx, hf, hn⟩ := alert_react (tidy_follow p offers).2 ht
    exact ⟨(Fields.map_eq code).2.1.1 hh, hx.trans (Fault.message_eq _), hf, Note.text_faulted _ _, hn⟩

/-- A hole at the first instruction is told of by one alert and one error; after that neither a start nor a shutdown
changes what can be read of it. -/
theorem halted_until_reset_at_hole :
    let p : Processor Ram := { bus := Ram.empty.set 0x0100 0xD3 }
    let b := (ofProcessor p).follow [some (.start false)]
    let c := (ofProcessor p).follow [some (.start false), none]
    let d := c.follow [some (.start true), some (.addBreakpoint 0x0200), some .shutdown, none]
    .alert "INSTRUCTION: 0xD3\nAt ROM Offset: 0x0100" ∈ (b.now.react none).events ∧
      (b.now.react none).events.filter Event.isError = [.note (.faulted ⟨⟨0xD3⟩, 0x0100⟩ .powerUp)] ∧
      c.now.mode = .halted ∧ d.now.mode = .halted ∧ d.now.published = c.now.published ∧
      ∃ es, d.told = c.told ++ es ∧ Event.shown es = [] := by
  intro p b c d
  have ha : .alert "INSTRUCTION: 0xD3\nAt ROM Offset: 0x0100" ∈ (b.now.react none).events := by decide
  obtain ⟨-, -, -, -, -, ht⟩ := halted_until_reset p [some (.start false)]
  obtain ⟨-, -, hf, -⟩ := ht none _ ha
  have hc : (Bus.read b.now.processor.bus b.now.processor.regs.pc).1 = 0xD3 :=
    (Ram.get_set _ _ _ _).trans (if_pos rfl)
  have hm : c.now.mode = .halted := by decide
  have hr : some Request.reset ∉
      [some (.start true), some (.addBreakpoint 0x0200), some .shutdown, none] := by decide
  obtain ⟨hd, he⟩ := (halted_until_reset p [some (.start false), none]).1 _ hm hr
  have hx : d.now.mode = c.now.mode ∧ d.now.published = c.now.published := by
    rw [hd]
    exact ⟨rfl, rfl⟩
  refine ⟨ha, ?_, hm, hx.1.trans hm, hx.2, he⟩
  rw [hf, hc]
  rfl

end Course

end Sm83
