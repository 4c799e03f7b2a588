import Sm83.Bus.Ram
import Sm83.Console.Dialogue
import Sm83.Proofs.Breakpoints

/-!
A person who is alone at the console of a loop and toggles breakpoints. The sequencer takes its turns whenever it
likes, so what it holds lags behind what was sent; a question waits for all that was sent before it. A toggle
therefore goes by the breakpoints as everything sent so far makes them.
-/

set_option autoImplicit false

namespace Sm83

variable {μ : Type} [Bus μ]

namespace Event

theorem mem_answers {es : List Event} {a : Word} {on : Bool} : (a, on) ∈ answers es ↔ .answer a on ∈ es := by
  rw [answers, List.mem_filterMap]
  refine ⟨fun h => ?_, fun h => ⟨_, h, rfl⟩⟩
  obtain ⟨e, he, ha⟩ := h
  cases e with
  | answer b v =>
    cases ha
    exact he
  | _ => cases ha

end Event

namespace Loop

def Attends (p : Processor μ) (l : Loop μ) : Prop :=
  ∃ offers, some .shutdown ∉ offers ∧ l.sequencer = ((Course.ofProcessor p).follow offers).now

theorem Attends.present {p : Processor μ} {l : Loop μ} (h : l.Attends p) : l.sequencer.phase ≠ .gone := by
  obtain ⟨offers, hs, hl⟩ := h
  rw [hl]
  exact Course.present_follow p hs

theorem Attends.turn {p : Processor μ} {l : Loop μ} (h : l.Attends p) (hi : .shutdown ∉ l.inbox) :
    l.turn.1.Attends p := by
  rw [turn_eq h.present]
  obtain ⟨offers, hs, hl⟩ := h
  refine ⟨offers ++ [l.inbox.head?], ?_, ?_⟩
  · intro hm
    rcases List.mem_append.1 hm with hm | hm
    · exact hs hm
    · exact hi (List.mem_of_mem_head? (List.mem_singleton.1 hm).symm)
  · rw [Course.follow_append, Course.follow_cons, Course.follow_nil, Course.now_meet, ← hl]

theorem turn_takes {p : Processor μ} {l : Loop μ} (h : l.Attends p) : l.turn.1.inbox = l.inbox.tail ∧
    l.turn.1.sequencer.breakpoints = l.inbox.head?.toList.foldl Breakpoints.heed l.sequencer.breakpoints ∧
    Event.answers l.turn.2 = l.sequencer.breakpoints.answers l.inbox.head?.toList := by
  rw [turn_eq h.present]
  cases l.inbox.head? with
  | none =>
    have hn := l.sequencer.spares_react
    exact ⟨rfl, hn.breakpoints, hn.answers⟩
  | some r =>
    have hn := Sequencer.react_heeds h.present r
    exact ⟨rfl, hn.breakpoints, by simpa [Breakpoints.answers] using hn.answers⟩

theorem turns_take {p : Processor μ} {l : Loop μ} (h : l.Attends p) (hi : .shutdown ∉ l.inbox) (n : Nat) :
    (l.turns n).1.Attends p ∧ (l.turns n).1.inbox = l.inbox.drop n ∧
      (l.turns n).1.sequencer.breakpoints = (l.inbox.take n).foldl Breakpoints.heed l.sequencer.breakpoints ∧
      Event.answers (l.turns n).2 = l.sequencer.breakpoints.answers (l.inbox.take n) := by
  induction n with
  | zero => exact ⟨h, rfl, rfl, rfl⟩
  | succ n ih =>
    obtain ⟨ha, hd, hb, he⟩ := ih
    obtain ⟨ht, hk, hw⟩ := turn_takes ha
    have hs : .shutdown ∉ (l.turns n).1.inbox := fun hm => hi (List.mem_of_mem_drop (hd ▸ hm))
    have hx : (l.turns n).1.inbox.head? = l.inbox[n]? := by rw [hd, List.head?_drop]
    rw [turns_succ]
    refine ⟨ha.turn hs, ?_, ?_, ?_⟩
    · rw [ht, hd, List.tail_drop]
    · rw [hk, hb, hx, List.take_add_one, List.foldl_append]
    · rw [Event.answers_append, he, hw, hb, hx, List.take_add_one, Breakpoints.answers_append]

end Loop

theorem Link.toggle_eq {m : Type → Type} [Monad m] (l : Link m) (a : Word) :
    l.toggle a = l.query a >>= fun on =>
      l.send (if on then .removeBreakpoint a else .addBreakpoint a) >>= fun _ =>
        l.tell .out ("breakpoint " ++ Hex.word a ++ if on then " off" else " on") := by
  unfold toggle
  congr
  funext on
  cases on <;> rfl

/-- What was sent to a loop from its console, and what was said to the person there. -/
structure Talk (μ : Type) where
  loop : Loop μ
  sent : List Request := []
  said : List (Channel × String) := []

namespace Talk

def ofProcessor (p : Processor μ) : Talk μ := { loop := .ofProcessor p }

def send (t : Talk μ) (r : Request) : Talk μ := { t with loop := t.loop.send [r], sent := t.sent ++ [r] }

def say (t : Talk μ) (c : Channel) (text : String) : Talk μ := { t with said := t.said ++ [(c, text)] }

def pass (t : Talk μ) (n : Nat) : Talk μ × List Event := ({ t with loop := (t.loop.turns n).1 }, (t.loop.turns n).2)

/-- After everything that is done at the console the sequencer takes any number of turns, and enough of them to come
to a question. -/
def link (wait : Talk μ → Nat) : Link (StateM (Talk μ)) where
  send r := modify fun t => ((t.send r).pass (wait (t.send r))).1
  query a := do
    let t := (← get).send (.queryBreakpoint a)
    let (u, told) := t.pass (t.loop.inbox.length + wait t)
    set u
    return told.contains (.answer a true)
  status := return (← get).loop.sequencer.published
  tell c text := modify fun t => ((t.say c text).pass (wait (t.say c text))).1

/-- The sequencer has taken what was sent, up to what is still in the inbox. -/
structure Keeps (p : Processor μ) (t : Talk μ) : Prop where
  attends : t.loop.Attends p
  stays : .shutdown ∉ t.loop.inbox
  sent : ∃ taken, t.sent = taken ++ t.loop.inbox ∧ t.loop.sequencer.breakpoints = .after taken

structure Rests (p : Processor μ) (t : Talk μ) : Prop extends Keeps p t where
  unasked : ∀ a, .queryBreakpoint a ∉ t.loop.inbox

variable {p : Processor μ} {t : Talk μ}

theorem Keeps.send (h : t.Keeps p) {r : Request} (hr : r ≠ .shutdown) : (t.send r).Keeps p := by
  obtain ⟨taken, hs, hb⟩ := h.sent
  refine ⟨h.attends, ?_, taken, ?_, hb⟩
  · intro hm
    rcases List.mem_append.1 hm with hm | hm
    · exact h.stays hm
    · exact hr (List.mem_singleton.1 hm).symm
  · rw [Talk.send, hs, List.append_assoc]
    rfl

theorem Keeps.pass (h : t.Keeps p) (n : Nat) : (t.pass n).1.Keeps p := by
  obtain ⟨taken, hs, hb⟩ := h.sent
  obtain ⟨ha, hd, hk, -⟩ := Loop.turns_take h.attends h.stays n
  refine ⟨ha, fun hm => h.stays (List.mem_of_mem_drop (hd ▸ hm)), taken ++ t.loop.inbox.take n, ?_, ?_⟩
  · show t.sent = _ ++ (t.loop.turns n).1.inbox
    rw [hd, List.append_assoc, List.take_append_drop, hs]
  · rw [Breakpoints.after_append, ← hb]
    exact hk

theorem Rests.pass (h : t.Rests p) (n : Nat) : (t.pass n).1.Rests p := by
  obtain ⟨-, hd, -⟩ := Loop.turns_take h.attends h.stays n
  exact ⟨h.toKeeps.pass n, fun a hm => h.unasked a (List.mem_of_mem_drop (hd ▸ hm))⟩

theorem Keeps.breakpoints_turns (h : t.Keeps p) {n : Nat} (hn : t.loop.inbox.length ≤ n) :
    (t.loop.turns n).1.sequencer.breakpoints = .after t.sent := by
  obtain ⟨taken, hs, hb⟩ := h.sent
  obtain ⟨-, -, hk, -⟩ := Loop.turns_take h.attends h.stays n
  rw [hk, List.take_of_length_le hn, hb, hs, Breakpoints.after_append]

theorem Rests.send (h : t.Rests p) {r : Request} (hr : r ≠ .shutdown) (hq : ∀ a, r ≠ .queryBreakpoint a) :
    (t.send r).Rests p := by
  refine ⟨h.toKeeps.send hr, fun a hm => ?_⟩
  rcases List.mem_append.1 hm with hm | hm
  · exact h.unasked a hm
  · exact hq a (List.mem_singleton.1 hm).symm

theorem Rests.say (h : t.Rests p) (c : Channel) (text : String) : (t.say c text).Rests p :=
  ⟨⟨h.attends, h.stays, h.sent⟩, h.unasked⟩

theorem Rests.query (h : t.Rests p) (a : Word) (n : Nat) :
    let u := (t.send (.queryBreakpoint a)).pass ((t.send (.queryBreakpoint a)).loop.inbox.length + n)
    u.1.Rests p ∧ u.2.contains (.answer a true) = (Breakpoints.after t.sent).contains a := by
  intro u
  have hk := h.toKeeps.send (r := .queryBreakpoint a) (by simp)
  have hi : (t.send (.queryBreakpoint a)).loop.inbox = t.loop.inbox ++ [.queryBreakpoint a] := rfl
  obtain ⟨taken, hs, hb⟩ := h.sent
  obtain ⟨-, hd, -, he⟩ := Loop.turns_take hk.attends hk.stays ((t.send (.queryBreakpoint a)).loop.inbox.length + n)
  refine ⟨⟨hk.pass _, fun x hm => ?_⟩, ?_⟩
  · have hx : u.1.loop.inbox = [] := hd.trans (List.drop_eq_nil_of_le (by omega))
    rw [hx] at hm
    cases hm
  · have ha : Event.answers u.2 = [(a, (Breakpoints.after t.sent).contains a)] := by
      -- no other question was waiting, and this one meets all that was sent before it
      refine he.trans ?_
      rw [List.take_of_length_le (by omega), hi, Breakpoints.answers_append,
        Breakpoints.answers_eq_nil _ h.unasked, hs, Breakpoints.after_append, ← hb]
      rfl
    rw [Bool.eq_iff_iff, List.contains_iff_mem, ← Event.mem_answers, ha, List.mem_singleton]
    exact ⟨fun hx => (congrArg Prod.snd hx).symm, fun hx => by rw [hx]⟩

/-! What is done at the console keeps to that, whatever the lines are. -/

def Safe (p : Processor μ) {α : Type} (m : StateM (Talk μ) α) : Prop := ∀ t, t.Rests p → (m.run t).2.Rests p

variable {wait : Talk μ → Nat}

theorem safe_pure {α : Type} (a : α) : Safe p (pure a) := fun _ h => h

theorem Safe.bind {α β : Type} {m : StateM (Talk μ) α} {k : α → StateM (Talk μ) β} (hm : Safe p m)
    (hk : ∀ a, Safe p (k a)) : Safe p (m >>= k) := fun t h => hk _ _ (hm t h)

theorem safe_send {r : Request} (hr : r ≠ .shutdown) (hq : ∀ a, r ≠ .queryBreakpoint a) :
    Safe p ((link wait).send r) := fun _ h => (h.send hr hq).pass _

theorem safe_tell (c : Channel) (text : String) : Safe p ((link wait).tell c text) :=
  fun _ h => (h.say c text).pass _

theorem safe_query (a : Word) : Safe p ((link wait).query a) := fun _ h => (h.query a _).1

theorem safe_toggle (a : Word) : Safe p ((link wait).toggle a) := by
  refine (safe_query a).bind fun on => ?_
  cases on with
  | true => exact (safe_send (by simp) (by simp)).bind fun _ => safe_tell _ _
  | false => exact (safe_send (by simp) (by simp)).bind fun _ => safe_tell _ _

theorem safe_obey (debug : Bool) (c : Command) : Safe p ((link wait).obey debug c) := by
  cases c with
  | toggle a => exact safe_toggle a
  | info => exact Safe.bind (fun _ h => h) fun s => safe_tell .out s.report
  | quit => exact safe_pure ()
  | _ => exact safe_send (by simp) (by simp)

theorem safe_greet (o : Options) : Safe p ((link wait).greet o) := by
  have hb : Safe p (o.breakpoints.forM fun a => (link wait).send (.addBreakpoint a)) := by
    induction o.breakpoints with
    | nil => exact safe_pure _
    | cons a as ih => exact (safe_send (by simp) (by simp)).bind fun _ => ih
  exact hb.bind fun _ => (safe_send (by simp) (by simp)).bind fun _ => safe_tell _ _

theorem safe_feed (wait : Talk μ → Nat) (debug : Bool) (line : String) : Safe p ((link wait).feed debug line) := by
  unfold Link.feed
  split
  · exact safe_pure _
  · split
    · exact safe_pure _
    · exact (safe_obey debug _).bind fun _ => safe_pure _
    · exact (safe_tell _ _).bind fun _ => safe_pure _

theorem safe_feedAll (debug : Bool) (lines : List String) : Safe p ((link wait).feedAll debug lines) := by
  induction lines with
  | nil => exact safe_pure _
  | cons line lines ih =>
    refine (safe_feed wait debug line).bind fun on => ?_
    cases on with
    | true => exact ih
    | false => exact safe_pure _

def ofLines (wait : Talk μ → Nat) (p : Processor μ) (o : Options) (lines : List String) : Talk μ :=
  (((link wait).greet o >>= fun _ => (link wait).feedAll o.debug lines).run (.ofProcessor p)).2

theorem rests_ofProcessor (p : Processor μ) : (ofProcessor p).Rests p where
  attends := ⟨[], by simp, rfl⟩
  stays := by simp [ofProcessor, Loop.ofProcessor]
  sent := ⟨[], rfl, rfl⟩
  unasked := by simp [ofProcessor, Loop.ofProcessor]

theorem rests_ofLines (wait : Talk μ → Nat) (p : Processor μ) (o : Options) (lines : List String) :
    (ofLines wait p o lines).Rests p :=
  ((safe_greet o).bind fun _ => safe_feedAll o.debug lines) _ (rests_ofProcessor p)

theorem feed_toggle (debug : Bool) {line : String} {a : Word} (hl : Command.read line = .ok (.toggle a)) :
    (link wait).feed debug line = (link wait).toggle a >>= fun _ => pure true := by
  have hb : line.toList.all isBlank ≠ true := by
    intro h
    rw [Command.read, (words_eq_nil_iff line).2 h] at hl
    cases hl
  rw [Link.feed, if_neg hb, hl]
  rfl

theorem run_query (wait : Talk μ → Nat) (h : t.Rests p) (a : Word) : ∃ u : Talk μ,
    ((link wait).query a).run t = ((Breakpoints.after t.sent).contains a, u) ∧
      u.sent = t.sent ++ [.queryBreakpoint a] ∧ u.said = t.said := by
  have hq := (h.query a (wait (t.send (.queryBreakpoint a)))).2
  exact ⟨_, Prod.ext hq rfl, rfl, rfl⟩

theorem run_then {σ α β : Type} {m : StateM σ α} {k : α → StateM σ β} {s u : σ} {a : α}
    (h : m.run s = (a, u)) : (m >>= k).run s = (k a).run u :=
  congrArg (fun x : α × σ => (k x.1).run x.2) h

theorem run_toggle (wait : Talk μ → Nat) (h : t.Rests p) (a : Word) : ∃ u : Talk μ,
    ((link wait).toggle a).run t = ((), u) ∧
      u.sent = t.sent ++ [.queryBreakpoint a,
        if (Breakpoints.after t.sent).contains a then .removeBreakpoint a else .addBreakpoint a] ∧
      u.said = t.said ++ [(.out, "breakpoint " ++ Hex.word a ++
        if (Breakpoints.after t.sent).contains a then " off" else " on")] := by
  obtain ⟨u, hq, hs, ht⟩ := run_query wait h a
  have hr (r : Request) (text : String) : ∃ v : Talk μ,
      ((link wait).send r >>= fun _ => (link wait).tell .out text).run u = ((), v) ∧
        v.sent = u.sent ++ [r] ∧ v.said = u.said ++ [(.out, text)] := ⟨_, rfl, rfl, rfl⟩
  obtain ⟨v, hv, hsv, htv⟩ := hr
    (if (Breakpoints.after t.sent).contains a then .removeBreakpoint a else .addBreakpoint a)
    ("breakpoint " ++ Hex.word a ++ if (Breakpoints.after t.sent).contains a then " off" else " on")
  refine ⟨v, ?_, ?_, ?_⟩
  · rw [Link.toggle_eq, run_then hq, hv]
  · rw [hsv, hs, List.append_assoc]
    rfl
  · rw [htv, ht]

theorem contains_toggled (rs : List Request) (a x : Word) :
    (Breakpoints.after (rs ++ [.queryBreakpoint a,
      if (Breakpoints.after rs).contains a then .removeBreakpoint a else .addBreakpoint a])).contains x =
        if x = a then !(Breakpoints.after rs).contains a else (Breakpoints.after rs).contains x := by
  rw [Breakpoints.after_append]
  by_cases hx : x = a
  · subst hx
    cases hc : (Breakpoints.after rs).contains x <;> simp [Breakpoints.heed]
  · cases hc : (Breakpoints.after rs).contains a <;> simp [Breakpoints.heed, hx]

end Talk

/-- An address has a breakpoint when the last of the requests that concern it, of those that were taken, put one there;
a query says so. At the console a toggle turns the breakpoint of its address over, no other, and says which way. -/
theorem Course.breakpoints_by_last_request (p : Processor μ) :
    (∀ offers, let c := (ofProcessor p).follow offers
      let rs := (ofProcessor p).taken offers
      (some .shutdown ∉ offers → rs = offers.filterMap id) ∧
        (∀ a, c.now.breakpoints.contains a = true ↔
          (rs.filter (Request.concerns a)).getLast? = some (.addBreakpoint a)) ∧
        (∀ o, (∀ r ∈ o, ∀ a, Request.concerns a r = false) →
          (c.now.react o).next.breakpoints = c.now.breakpoints) ∧
        (c.now.phase ≠ .gone →
          ∀ o, Event.answers (c.now.react o).events = o.toList.flatMap c.now.breakpoints.answer)) ∧
      ∀ wait o lines line a, Command.read line = .ok (.toggle a) →
        let t := Talk.ofLines wait p o lines
        ∃ u, ((Talk.link wait).feed o.debug line).run t = (true, u) ∧
          (∀ x, (Breakpoints.after u.sent).contains x =
            if x = a then !(Breakpoints.after t.sent).contains a else (Breakpoints.after t.sent).contains x) ∧
          u.said = t.said ++ [(.out, "breakpoint " ++ Hex.word a ++
            if (Breakpoints.after u.sent).contains a then " on" else " off")] ∧
          (∀ n, t.loop.inbox.length ≤ n → (t.loop.turns n).1.sequencer.breakpoints = .after t.sent) ∧
          ∀ n, u.loop.inbox.length ≤ n → (u.loop.turns n).1.sequencer.breakpoints = .after u.sent := by
  refine ⟨fun offers => ?_, fun wait o lines line a hl => ?_⟩
  · intro c rs
    have hb : c.now.breakpoints = .after rs := (ofProcessor p).breakpoints_follow offers
    refine ⟨fun hs => ?_, fun a => ?_, fun o ho => c.now.breakpoints_react ho,
      fun hg o => Sequencer.answers_react hg o⟩
    · refine taken_eq fun before rest he => present_follow p fun hm => hs ?_
      rw [he]
      exact List.mem_append_left _ hm
    · rw [hb]
      exact Breakpoints.contains_after rs a
  · intro t
    have ht := Talk.rests_ofLines wait p o lines
    have hf := Talk.safe_feed wait o.debug line t ht
    obtain ⟨u, hu, hs, hd⟩ := Talk.run_toggle wait ht a
    rw [Talk.feed_toggle o.debug hl, Talk.run_then hu] at hf
    have hx (x : Word) := Talk.contains_toggled t.sent a x
    rw [← hs] at hx
    refine ⟨u, ?_, hx, ?_, fun n => ht.toKeeps.breakpoints_turns, fun n => hf.toKeeps.breakpoints_turns⟩
    · rw [Talk.feed_toggle o.debug hl, Talk.run_then hu]
      rfl
    · rw [hd, hx a, if_pos rfl]
      cases (Breakpoints.after t.sent).contains a <;> rfl

/-- A breakpoint set while an instruction is held is told of at once; one that came with the options goes off at the
first toggle, while the run is under way. -/
theorem Course.breakpoints_by_last_request_at_console :
    let p : Processor Ram := { bus := .empty }
    let c := (ofProcessor p).follow
      [some (.addBreakpoint 0x0100), some (.start false), none, some (.addBreakpoint 0x0150)]
    let t := Talk.ofLines (fun _ => 1) p { breakpoints := [0x0150] } ["p", "r"]
    c.now.mode = .stepping ∧
      Event.answers (c.now.react (some (.queryBreakpoint 0x0150))).events = [(0x0150, true)] ∧
      (c.now.react none).next.breakpoints = c.now.breakpoints ∧
      Command.read "b 150" = .ok (.toggle 0x0150) ∧ t.loop.sequencer.mode = .running ∧
      (Breakpoints.after t.sent).contains 0x0150 = true ∧
      ∃ u, ((Talk.link fun _ => 1).feed false "b 150").run t = (true, u) ∧
        (Breakpoints.after u.sent).contains 0x0150 = false ∧
        u.said = t.said ++ [(.out, "breakpoint 0x0150 off")] := by
  intro p c t
  obtain ⟨hoffers, hlines⟩ := breakpoints_by_last_request p
  obtain ⟨htaken, hmem, hstay, hanswer⟩ := hoffers
    [some (.addBreakpoint 0x0100), some (.start false), none, some (.addBreakpoint 0x0150)]
  have hb : c.now.breakpoints.contains 0x0150 = true := by
    refine (hmem 0x0150).2 ?_
    rw [htaken (by decide)]
    rfl
  have ha := hanswer (by decide) (some (.queryBreakpoint 0x0150))
  have hq : c.now.breakpoints.answer (.queryBreakpoint 0x0150) = [(0x0150, true)] := by
    rw [Breakpoints.answer, hb]
  have hl : Command.read "b 150" = .ok (.toggle 0x0150) := by rfl
  have hc : (Breakpoints.after t.sent).contains 0x0150 = true := by decide
  obtain ⟨u, hu, hx, hd, -⟩ := hlines (fun _ => 1) { breakpoints := [0x0150] } ["p", "r"] _ _ hl
  have ho : (Breakpoints.after u.sent).contains 0x0150 = false := by
    rw [hx 0x0150, if_pos rfl, hc]
    rfl
  rw [ho] at hd
  refine ⟨by decide, ?_, hstay none (by simp), hl, by decide, hc, u, hu, ho, hd⟩
  rw [ha, Option.toList_some, List.flatMap_singleton, hq]

end Sm83
