import Sm83.Proofs.Consistency
import Sm83.Proofs.Turns

/-!
The breakpoints as the requests make them. Only three kinds of request change the set, nothing else that a sequencer
does, and a query is answered by the set as it stands. So an address has a breakpoint when the last request that
concerns it put one there.
-/

set_option autoImplicit false

namespace Sm83

/-- The request decides whether the address has a breakpoint. -/
def Request.concerns (a : Word) : Request → Bool
  | .addBreakpoint b | .removeBreakpoint b => b == a
  | .reset => true
  | .start _ | .stop | .adjust _ | .queryBreakpoint _ | .shutdown => false

namespace Breakpoints

def heed (b : Breakpoints) : Request → Breakpoints
  | .addBreakpoint a => b.insert a
  | .removeBreakpoint a => b.erase a
  | .reset => {}
  | .start _ | .stop | .adjust _ | .queryBreakpoint _ | .shutdown => b

def answer (b : Breakpoints) : Request → List (Word × Bool)
  | .queryBreakpoint a => [(a, b.contains a)]
  | .start _ | .stop | .adjust _ | .reset | .addBreakpoint _ | .removeBreakpoint _ | .shutdown => []

def after (rs : List Request) : Breakpoints := rs.foldl heed {}

def answers (b : Breakpoints) : List Request → List (Word × Bool)
  | [] => []
  | r :: rs => b.answer r ++ (b.heed r).answers rs

theorem after_append (rs qs : List Request) : after (rs ++ qs) = qs.foldl heed (after rs) :=
  List.foldl_append

theorem answers_append (b : Breakpoints) (rs qs : List Request) :
    b.answers (rs ++ qs) = b.answers rs ++ (rs.foldl heed b).answers qs := by
  induction rs generalizing b with
  | nil => rfl
  | cons r rs ih => simp [answers, ih]

theorem answers_eq_nil (b : Breakpoints) {rs : List Request} (h : ∀ a, .queryBreakpoint a ∉ rs) :
    b.answers rs = [] := by
  induction rs generalizing b with
  | nil => rfl
  | cons r rs ih =>
    have hr : b.answer r = [] := by
      cases r with
      | queryBreakpoint a => exact absurd List.mem_cons_self (h a)
      | _ => rfl
    rw [answers, hr, ih _ fun a ha => h a (List.mem_cons_of_mem _ ha), List.append_nil]

theorem insert_of_contains {b : Breakpoints} {a : Word} (h : b.contains a = true) : b.insert a = b := if_pos h

theorem erase_of_not_contains {b : Breakpoints} {a : Word} (h : ¬ b.contains a = true) : b.erase a = b := by
  have hb : b.addresses.filter (· ≠ a) = b.addresses := by
    rw [List.filter_eq_self]
    intro x hx
    have hne : x ≠ a := fun he => h (by simpa [contains] using he ▸ hx)
    simpa using hne
  rw [erase, hb]

theorem contains_heed (b : Breakpoints) (r : Request) (a : Word) :
    (b.heed r).contains a = if r.concerns a then decide (r = .addBreakpoint a) else b.contains a := by
  cases r with
  | addBreakpoint x =>
    by_cases h : x = a
    · subst h
      simp [heed, Request.concerns]
    · simp [heed, Request.concerns, h, Ne.symm h]
  | removeBreakpoint x =>
    by_cases h : x = a
    · subst h
      simp [heed, Request.concerns]
    · simp [heed, Request.concerns, h, Ne.symm h]
  | reset => rfl
  | _ => rfl

theorem heed_of_unconcerned (b : Breakpoints) {r : Request} (h : ∀ a, r.concerns a = false) : b.heed r = b := by
  cases r with
  | addBreakpoint a | removeBreakpoint a => simpa [Request.concerns] using h a
  | reset => exact absurd (h 0) (by decide)
  | _ => rfl

theorem contains_foldl (b : Breakpoints) (rs : List Request) (a : Word) :
    (rs.foldl heed b).contains a =
      ((rs.filter (Request.concerns a)).getLast?.elim (b.contains a) fun r => decide (r = .addBreakpoint a)) := by
  induction rs generalizing b with
  | nil => rfl
  | cons r rs ih =>
    rw [List.foldl_cons, ih, contains_heed]
    cases hr : r.concerns a with
    | false => rw [List.filter_cons_of_neg (by simp [hr]), if_neg Bool.false_ne_true]
    | true =>
      -- the request decides unless one of those behind it does
      rw [List.filter_cons_of_pos hr, List.getLast?_cons, if_pos rfl]
      cases (rs.filter (Request.concerns a)).getLast? <;> rfl

theorem contains_after (rs : List Request) (a : Word) : (after rs).contains a = true ↔
    (rs.filter (Request.concerns a)).getLast? = some (.addBreakpoint a) := by
  rw [after, contains_foldl]
  cases (rs.filter (Request.concerns a)).getLast? with
  | none => simp [contains]
  | some r => simp

end Breakpoints

namespace Event

def answer? : Event → Option (Word × Bool)
  | .answer a on => some (a, on)
  | .note _ | .committed _ | .alert _ | .entered _ => none

def answers (es : List Event) : List (Word × Bool) := es.filterMap answer?

@[simp] theorem answers_append (es fs : List Event) : answers (es ++ fs) = answers es ++ answers fs := by
  simp [answers]

theorem answers_eq_nil {es : List Event} (h : ∀ e ∈ es, e.answer? = none) : answers es = [] :=
  List.filterMap_eq_nil_iff.2 h

end Event

structure Sequencer.Spares {μ : Type} (s : Sequencer μ) (r : Reaction μ) : Prop where
  breakpoints : r.next.breakpoints = s.breakpoints
  answers : Event.answers r.events = []

structure Sequencer.Heeds {μ : Type} (s : Sequencer μ) (q : Request) (r : Reaction μ) : Prop where
  breakpoints : r.next.breakpoints = s.breakpoints.heed q
  answers : Event.answers r.events = s.breakpoints.answer q

namespace Sequencer

variable {μ : Type} {s : Sequencer μ}

theorem Spares.andThen {r : Reaction μ} {f : Sequencer μ → Reaction μ} (h : s.Spares r)
    (k : r.next.Spares (f r.next)) : s.Spares (r.andThen f) where
  breakpoints := k.breakpoints.trans h.breakpoints
  answers := by rw [Reaction.events_andThen, Event.answers_append, h.answers, k.answers, List.append_nil]

theorem Heeds.andThen {q : Request} {r : Reaction μ} {f : Sequencer μ → Reaction μ} (h : s.Heeds q r)
    (k : r.next.Spares (f r.next)) : s.Heeds q (r.andThen f) where
  breakpoints := k.breakpoints.trans h.breakpoints
  answers := by rw [Reaction.events_andThen, Event.answers_append, h.answers, k.answers, List.append_nil]

theorem Spares.of {t : Sequencer μ} {r : Reaction μ} (h : t.Spares r) (ht : t.breakpoints = s.breakpoints) :
    s.Spares r := ⟨h.breakpoints.trans ht, h.answers⟩

theorem Spares.heeds {t : Sequencer μ} {q : Request} {r : Reaction μ} (h : t.Spares r)
    (hb : t.breakpoints = s.breakpoints.heed q) (ha : s.breakpoints.answer q = []) : s.Heeds q r :=
  ⟨h.breakpoints.trans hb, h.answers.trans ha.symm⟩

theorem spares_saying (s : Sequencer μ) (n : Note) : s.Spares (s.saying n) := ⟨rfl, rfl⟩

theorem spares_announce (s : Sequencer μ) (m : Mode) : s.Spares (s.announce m) := by
  refine ⟨by simp [next_announce], ?_⟩
  rw [events_announce]
  split <;> rfl

theorem spares_announceRun (s : Sequencer μ) : s.Spares s.announceRun := by
  unfold announceRun
  split
  · exact s.spares_announce _
  · exact ⟨rfl, rfl⟩

theorem spares_settle (s : Sequencer μ) : s.Spares s.settle := by
  refine ⟨by simp [next_settle], Event.answers_eq_nil fun e h => ?_⟩
  rw [mem_settle h]
  rfl

theorem spares_lock (s : Sequencer μ) (f : Fault) : s.Spares (s.lock f) := by
  refine Spares.andThen (Spares.andThen ⟨rfl, rfl⟩ ?_) (spares_settle _)
  exact (spares_announce { s with run := {}, fault := some f } .halted).of rfl

theorem spares_finish (s : Sequencer μ) (r : Completion) : s.Spares (s.finish r) := by
  refine ⟨?_, Event.answers_eq_nil fun e h => ?_⟩
  · cases ho : r.outcome <;> simp [finish, ho, next_announce, publish]
  · rcases mem_finish h with rfl | rfl | rfl <;> rfl

theorem obey_heeds (s : Sequencer μ) (r : Request) : s.Heeds r (s.obey r) := by
  cases r with
  | start debug =>
    simp only [obey]
    split
    · exact ⟨rfl, rfl⟩
    · split
      · exact ⟨rfl, rfl⟩
      · exact (spares_announceRun { s with run := .begin debug }).heeds rfl rfl
  | stop =>
    simp only [obey]
    split
    · exact (spares_announce { s with run := {} } .stopped).heeds rfl rfl
    · exact ⟨rfl, rfl⟩
  | adjust a =>
    simp only [obey]
    split
    · exact (spares_announceRun { s with run := s.run.adjust a }).heeds rfl rfl
    · exact ⟨rfl, rfl⟩
  | reset => exact (spares_announce _ .idle).heeds rfl rfl
  | addBreakpoint a =>
    simp only [obey]
    split
    next h => exact ⟨(Breakpoints.insert_of_contains h).symm, rfl⟩
    next => exact ⟨rfl, rfl⟩
  | removeBreakpoint a =>
    simp only [obey]
    split
    next => exact ⟨rfl, rfl⟩
    next h => exact ⟨(Breakpoints.erase_of_not_contains h).symm, rfl⟩
  | queryBreakpoint a => exact ⟨rfl, rfl⟩
  | shutdown => exact ⟨rfl, rfl⟩

theorem take_heeds (s : Sequencer μ) (r : Request) : s.Heeds r (s.take r) := by
  have h := s.obey_heeds r
  exact ⟨h.breakpoints, h.answers⟩

variable [Bus μ]

theorem spares_commit (s : Sequencer μ) (op : Opcode) : s.Spares (s.commit op) := by
  rw [commit_eq]
  refine Spares.andThen (Spares.andThen ⟨rfl, Event.answers_eq_nil fun e h => ?_⟩ (spares_finish _ _))
    (spares_settle _)
  rcases mem_retire h with rfl | hn | rfl
  · rfl
  · rcases mem_notes hn with ⟨w, rfl⟩ | ⟨n, rfl⟩ <;> rfl
  · rfl

theorem spares_consider (s : Sequencer μ) (op : Opcode) : s.Spares (s.consider op) := by
  unfold consider
  split
  · exact s.spares_settle
  · split
    · exact ⟨rfl, rfl⟩
    · split
      · exact (spares_announceRun { s with phase := .held op .step }).of rfl
      · exact s.spares_commit op

theorem spares_check (s : Sequencer μ) : s.Spares s.check := by
  refine ⟨rfl, Event.answers_eq_nil fun e h => ?_⟩
  rw [mem_check h]
  rfl

theorem spares_begin (s : Sequencer μ) : s.Spares s.begin := by
  rw [begin_eq]
  split
  · exact s.spares_check.andThen (spares_lock _ _)
  · exact (s.spares_check.andThen (spares_saying _ _)).andThen (spares_consider _ _)

theorem spares_react (s : Sequencer μ) : s.Spares (s.react none) := by
  cases hp : s.phase with
  | gather =>
    simp only [react, hp]
    split
    · exact s.spares_begin
    · exact s.spares_settle
  | held op hold => cases hold <;> simp only [react, hp] <;> exact ⟨rfl, rfl⟩
  | rest | gone =>
    simp only [react, hp]
    exact ⟨rfl, rfl⟩

theorem react_heeds {s : Sequencer μ} (h : s.phase ≠ .gone) (r : Request) : s.Heeds r (s.react (some r)) := by
  have ht := s.take_heeds r
  cases hp : s.phase with
  | rest =>
    simp only [react, hp]
    exact ht.andThen (spares_settle _)
  | gather =>
    simp only [react, hp]
    exact ht
  | held op hold =>
    cases hold with
    | pause =>
      simp only [react, hp]
      refine ht.andThen ?_
      split
      · exact ⟨rfl, rfl⟩
      · exact spares_consider _ op
    | step =>
      simp only [react, hp]
      refine ht.andThen ?_
      split
      · exact ⟨rfl, rfl⟩
      · have hx := spares_announceRun { (s.take r).next with phase := .gather }
        exact Spares.andThen (hx.of rfl) (spares_consider _ op)
  | gone => exact absurd hp h

theorem breakpoints_react (s : Sequencer μ) {o : Option Request}
    (h : ∀ r ∈ o, ∀ a, Request.concerns a r = false) : (s.react o).next.breakpoints = s.breakpoints := by
  cases o with
  | none => exact s.spares_react.breakpoints
  | some r =>
    by_cases hg : s.phase = .gone
    · simp [react, hg]
    · rw [(react_heeds hg r).breakpoints, Breakpoints.heed_of_unconcerned _ (h r rfl)]

theorem answers_react {s : Sequencer μ} (h : s.phase ≠ .gone) (o : Option Request) :
    Event.answers (s.react o).events = o.toList.flatMap s.breakpoints.answer := by
  cases o with
  | none => exact s.spares_react.answers
  | some r => simpa using (react_heeds h r).answers

end Sequencer

namespace Course

variable {μ : Type} [Bus μ]

/-- The requests of the offers that the sequencer was there to take. -/
def taken (c : Course μ) : List (Option Request) → List Request
  | [] => []
  | o :: os => (if c.now.phase = .gone then [] else o.toList) ++ (c.meet o).taken os

theorem breakpoints_meet (c : Course μ) (o : Option Request) : (c.meet o).now.breakpoints =
    (if c.now.phase = .gone then [] else o.toList).foldl Breakpoints.heed c.now.breakpoints := by
  rw [now_meet]
  cases o with
  | none =>
    rw [c.now.spares_react.breakpoints]
    split <;> rfl
  | some r =>
    split
    next hg => simp [Sequencer.react, hg]
    next hg => exact (Sequencer.react_heeds hg r).breakpoints

theorem breakpoints_follow (c : Course μ) (offers : List (Option Request)) :
    (c.follow offers).now.breakpoints = (c.taken offers).foldl Breakpoints.heed c.now.breakpoints := by
  induction offers generalizing c with
  | nil => rfl
  | cons o os ih => rw [follow_cons, ih, breakpoints_meet, taken, List.foldl_append]

theorem present_follow (p : Processor μ) {offers : List (Option Request)} (h : some .shutdown ∉ offers) :
    ((ofProcessor p).follow offers).now.phase ≠ .gone := by
  intro hg
  have hl := (tidy_follow p offers).1.gone hg
  rw [staying_follow rfl h] at hl
  cases hl

theorem taken_eq {c : Course μ} {offers : List (Option Request)}
    (h : ∀ before rest, offers = before ++ rest → (c.follow before).now.phase ≠ .gone) :
    c.taken offers = offers.filterMap id := by
  induction offers generalizing c with
  | nil => rfl
  | cons o os ih =>
    have hg : c.now.phase ≠ .gone := h [] _ rfl
    have ht := ih (c := c.meet o) fun before rest hb => h (o :: before) rest (by rw [hb, List.cons_append])
    rw [taken, if_neg hg, ht]
    cases o <;> rfl

end Course

end Sm83
