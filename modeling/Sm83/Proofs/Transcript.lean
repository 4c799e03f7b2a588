import Sm83.Proofs.Numerals
import Sm83.Proofs.Toggle
import Sm83.Proofs.Words

/-!
What a conversation comes to, line by line and told from the words alone. It is a script of requests, toggles, reports
and texts, and nothing else is sent or said over any link; at the console of a loop the requests are then settled, at
whatever times the sequencer takes its turns.
-/

set_option autoImplicit false

namespace Sm83

inductive Step where
  | send (r : Request)
  | toggle (a : Word)
  | report
  | say (c : Channel) (text : String)
  deriving DecidableEq, Repr

namespace Step

def run {m : Type → Type} [Monad m] (l : Link m) : Step → m Unit
  | .send r => l.send r
  | .toggle a => do
    let on ← l.query a
    l.send (if on then .removeBreakpoint a else .addBreakpoint a)
    l.tell .out ("breakpoint " ++ Hex.word a ++ if on then " off" else " on")
  | .report => do l.tell .out (← l.status).report
  | .say c text => l.tell c text

def named? (debug : Bool) : String → Option Request
  | "s" | "step" => some (.adjust .singleStep)
  | "c" | "continue" => some (.adjust (.sticky false))
  | "p" | "pause" => some (.adjust .pause)
  | "r" | "resume" => some (.adjust .resume)
  | "start" => some (.start debug)
  | "stop" => some .stop
  | "reset" => some .reset
  | _ => none

def replies (debug : Bool) : List String → List Step
  | [] => []
  | w :: rest =>
    if w = "b" ∨ w = "break" then
      match rest with
      | [] => [.say .err "b needs an address"]
      | text :: _ =>
        match readAddress text with
        | .ok a => [.toggle a]
        | .error f => [.say .err f.message]
    else if w = "i" ∨ w = "info" then [.report]
    else if w = "q" ∨ w = "quit" then []
    else match named? debug w with
      | some r => [.send r]
      | none => [.say .err ("unknown command '" ++ w ++ "'")]

def quits (line : String) : Bool := (words line).head? = some "q" || (words line).head? = some "quit"

/-- What is done before the lines, and for the lines before the first that ends the conversation. -/
def exchange (o : Options) (lines : List String) : List Step :=
  o.breakpoints.map (fun a => .send (.addBreakpoint a)) ++ [.send (.start o.debug), .say .out Link.help] ++
    (lines.takeWhile (!quits ·)).flatMap fun line => replies o.debug (words line)

def script (o : Options) (lines : List String) : List Step := exchange o lines ++ [.send .shutdown]

def ofCommand (debug : Bool) : Command → List Step
  | .step => [.send (.adjust .singleStep)]
  | .proceed => [.send (.adjust (.sticky false))]
  | .pause => [.send (.adjust .pause)]
  | .resume => [.send (.adjust .resume)]
  | .toggle a => [.toggle a]
  | .info => [.report]
  | .start => [.send (.start debug)]
  | .stop => [.send .stop]
  | .reset => [.send .reset]
  | .quit => []

theorem replies_eq (debug : Bool) (w : String) (rest : List String) : replies debug (w :: rest) =
    match Command.ofWords (w :: rest) with
    | .ok c => ofCommand debug c
    | .error f => [.say .err f.message] := by
  rw [Command.ofWords.eq_def, replies.eq_def]
  by_cases hd : w = "b" ∨ w = "break"
  · simp only [if_pos hd]
    cases rest with
    | nil => rfl
    | cons text rest =>
      dsimp only
      cases readAddress text with
      | ok a => rfl
      | error f => rfl
  · simp only [if_neg hd]
    fun_cases Command.ofWord? w
    case case16 =>
      have hu : (Failure.unknownCommand w).message = "unknown command '" ++ w ++ "'" := rfl
      simp_all [named?]
    all_goals rfl

theorem quits_iff {line : String} : quits line = true ↔ Command.read line = .ok .quit := by
  rw [quits, Command.read]
  cases words line with
  | nil => simp [Command.ofWords]
  | cons w rest =>
    rw [Command.ofWords.eq_def]
    by_cases hd : w = "b" ∨ w = "break"
    · have hq : w ≠ "q" ∧ w ≠ "quit" := by rcases hd with rfl | rfl <;> decide
      simp only [if_pos hd]
      cases rest with
      | nil => simp [hq]
      | cons text rest => cases ht : readAddress text <;> simp [hq, ht, Except.map]
    · simp only [if_neg hd]
      fun_cases Command.ofWord? w
      case case16 => simp_all
      all_goals simp

end Step

namespace Link

variable {m : Type → Type} [Monad m] [LawfulMonad m] (l : Link m)

theorem obey_eq (debug : Bool) (c : Command) : l.obey debug c = (Step.ofCommand debug c).forM (Step.run l) := by
  cases c <;> simp [Step.ofCommand, Step.run, obey, toggle_eq]

theorem feed_eq (debug : Bool) (line : String) :
    l.feed debug line = if Step.quits line then pure false
      else (Step.replies debug (words line)).forM (Step.run l) >>= fun _ => pure true := by
  rw [feed]
  cases hw : words line with
  | nil =>
    rw [if_pos ((words_eq_nil_iff line).1 hw), Step.quits, hw]
    simp [Step.replies]
  | cons w rest =>
    have hb : ¬ line.toList.all isBlank = true := fun h => by
      rw [(words_eq_nil_iff line).2 h] at hw
      cases hw
    have hc : Command.read line = Command.ofWords (w :: rest) := by rw [Command.read, hw]
    rw [if_neg hb, Step.replies_eq, ← hc]
    by_cases hq : Command.read line = .ok .quit
    · rw [if_pos (Step.quits_iff.2 hq), hq]
    · rw [if_neg (mt Step.quits_iff.1 hq)]
      cases hr : Command.read line with
      | ok c =>
        rw [← obey_eq]
        cases c with
        | quit => exact (hq hr).elim
        | _ => rfl
      | error f => simp [Step.run]

theorem feedAll_eq (debug : Bool) (lines : List String) : l.feedAll debug lines =
    ((lines.takeWhile (!Step.quits ·)).flatMap fun line => Step.replies debug (words line)).forM (Step.run l) := by
  induction lines with
  | nil => rfl
  | cons line lines ih =>
    rw [feedAll, feed_eq, List.takeWhile_cons]
    cases Step.quits line with
    | true => simp
    | false => simp [ih]

theorem converse_eq (o : Options) (lines : List String) :
    l.converse o lines = (Step.script o lines).forM (Step.run l) := by
  rw [converse, greet, leave, feedAll_eq, Step.script, Step.exchange]
  simp [Step.run]

end Link

/-! The requests of a script at the console of a loop. -/

namespace Step

/-- The requests sent for a step when these were sent before. -/
def requests (sent : List Request) : Step → List Request
  | .send r => [r]
  | .toggle a =>
    [.queryBreakpoint a, if (Breakpoints.after sent).contains a then .removeBreakpoint a else .addBreakpoint a]
  | .report | .say _ _ => []

def allRequests (sent : List Request) (steps : List Step) : List Request :=
  steps.foldl (fun sent s => sent ++ s.requests sent) sent

/-- The step leaves the sequencer there, and it asks only by a toggle. -/
def Stays : Step → Prop
  | .send r => r ≠ .shutdown ∧ ∀ a, r ≠ .queryBreakpoint a
  | .toggle _ | .report | .say _ _ => True

theorem stays_named {debug : Bool} {w : String} {r : Request} (h : named? debug w = some r) : Stays (.send r) := by
  unfold named? at h
  split at h <;> cases h <;> exact ⟨nofun, nofun⟩

theorem stays_replies (debug : Bool) (ws : List String) : ∀ s ∈ replies debug ws, s.Stays := by
  fun_cases replies debug ws with
  | case1 | case6 => nofun
  | case7 w rest hd hi hq r hr => exact List.forall_mem_singleton.2 (stays_named hr)
  | _ => exact List.forall_mem_singleton.2 trivial

theorem stays_exchange (o : Options) (lines : List String) : ∀ s ∈ exchange o lines, s.Stays := by
  intro s hs
  rw [exchange, List.mem_append, List.mem_append] at hs
  rcases hs with (hs | hs) | hs
  · obtain ⟨a, -, rfl⟩ := List.mem_map.1 hs
    exact ⟨nofun, nofun⟩
  · simp only [List.mem_cons, List.not_mem_nil, or_false] at hs
    rcases hs with rfl | rfl
    · exact ⟨nofun, nofun⟩
    · trivial
  · obtain ⟨line, -, hs⟩ := List.mem_flatMap.1 hs
    exact stays_replies o.debug (words line) s hs

theorem notMem_replies (debug : Bool) (ws : List String) : .say .err "empty command" ∉ replies debug ws := by
  have hn {text : String} (h : text.toList.head? ≠ some 'e') : .say .err "empty command" ∉ [Step.say .err text] := by
    rintro hm
    cases List.mem_singleton.1 hm
    exact h rfl
  fun_cases replies debug ws with
  | case1 | case6 => nofun
  | case4 w hd text rest f hf =>
    obtain ⟨problem, rfl⟩ := exists_of_readAddress hf
    exact hn (by simp [Failure.message, Failure.chain, toString])
  | case8 w rest => exact hn (by simp)
  | _ => simp

end Step

namespace Talk

variable {μ : Type} [Bus μ] {p : Processor μ} {t : Talk μ} (wait : Talk μ → Nat)

theorem run_step (h : t.Rests p) {s : Step} (hs : s.Stays) :
    ((s.run (link wait)).run t).2.Rests p ∧ ((s.run (link wait)).run t).2.sent = t.sent ++ s.requests t.sent := by
  cases s with
  | send r => exact ⟨(h.send hs.1 hs.2).pass _, rfl⟩
  | toggle a =>
    have ht : Step.run (link wait) (.toggle a) = (link wait).toggle a := ((link wait).toggle_eq a).symm
    obtain ⟨u, hu, hs, -⟩ := run_toggle wait h a
    have hr : (((link wait).toggle a).run t).2.Rests p := safe_toggle a t h
    rw [ht]
    exact ⟨hr, by rw [hu, hs]; rfl⟩
  | report => exact ⟨(h.say _ _).pass _, (List.append_nil _).symm⟩
  | say c text => exact ⟨(h.say c text).pass _, (List.append_nil _).symm⟩

theorem run_steps (h : t.Rests p) {steps : List Step} (hs : ∀ s ∈ steps, s.Stays) :
    ((steps.forM (Step.run (link wait))).run t).2.Rests p ∧
      ((steps.forM (Step.run (link wait))).run t).2.sent = Step.allRequests t.sent steps := by
  induction steps generalizing t with
  | nil => exact ⟨h, rfl⟩
  | cons s steps ih =>
    obtain ⟨hr, he⟩ := run_step wait h (hs s List.mem_cons_self)
    have hx := ih hr fun s hm => hs s (List.mem_cons_of_mem _ hm)
    rw [Step.allRequests, List.foldl_cons, ← he]
    exact hx

theorem sent_converse (p : Processor μ) (o : Options) (lines : List String) :
    (((link wait).converse o lines).run (.ofProcessor p)).2.sent = Step.allRequests [] (Step.script o lines) := by
  obtain ⟨-, he⟩ := run_steps wait (rests_ofProcessor p) (Step.stays_exchange o lines)
  rw [Link.converse_eq, Step.script, List.forM_eq_forM, List.forM_append, Step.allRequests, List.foldl_append]
  exact congrArg (· ++ [.shutdown]) he

end Talk

/-- Which words count: the first, and the second behind a breakpoint command. -/
theorem Command.ofWords_eq {vs ws : List String} (h : vs.head? = ws.head?)
    (hb : vs.head? = some "b" ∨ vs.head? = some "break" → vs[1]? = ws[1]?) : ofWords vs = ofWords ws := by
  cases vs with
  | nil =>
    cases ws with
    | nil => rfl
    | cons w ws => cases h
  | cons v vs =>
    cases ws with
    | nil => cases h
    | cons w ws =>
      cases h
      rw [ofWords.eq_def, ofWords.eq_def]
      by_cases hd : v = "b" ∨ v = "break"
      · have ht : vs[0]? = ws[0]? := hb (by simpa using hd)
        cases vs with
        | nil =>
          cases ws with
          | nil => rfl
          | cons _ _ => cases ht
        | cons _ _ =>
          cases ws with
          | nil => cases ht
          | cons _ _ =>
            cases ht
            rfl
      · simp only [if_neg hd]

theorem Link.feed_congr {m : Type → Type} [Monad m] (l : Link m) (debug : Bool) {line other : String}
    (h : (words line).head? = (words other).head?)
    (hb : (words line).head? = some "b" ∨ (words line).head? = some "break" → (words line)[1]? = (words other)[1]?) :
    l.feed debug line = l.feed debug other := by
  have hn : line.toList.all isBlank = true ↔ other.toList.all isBlank = true := by
    rw [← words_eq_nil_iff, ← words_eq_nil_iff, ← List.head?_eq_none_iff, ← List.head?_eq_none_iff, h]
  have hr : Command.read line = Command.read other := Command.ofWords_eq h hb
  rw [feed, feed, hr]
  simp only [hn]

/-- A conversation does what its script says, over any link: the breakpoints, the start, for each line up to the first
that ends it what its words come to, and the shutdown; at the console of a loop this settles the requests. A line that
is not read comes to one text, a line without words to nothing. Lines that begin with the same words do the same, with
any blanks around the words and any words behind them, and the failure of a line without words is never told. -/
theorem Link.converse_by_script {m : Type → Type} [Monad m] [LawfulMonad m] {μ : Type} [Bus μ] (l : Link m)
    (p : Processor μ) (wait : Talk μ → Nat) (o : Options) (lines : List String) :
    l.converse o lines = (Step.script o lines).forM (Step.run l) ∧
    (((Talk.link wait).converse o lines).run (.ofProcessor p)).2.sent = Step.allRequests [] (Step.script o lines) ∧
    (∀ line ws, words line = ws.map String.ofList ↔ MadeOf line.toList ws) ∧
    (∀ line, (Step.quits line = true ↔ Command.read line = .ok .quit) ∧
      (line.toList.all isBlank = true ↔ words line = []) ∧
      ∀ f, words line ≠ [] → Command.read line = .error f →
        Step.replies o.debug (words line) = [.say .err f.message]) ∧
    (∀ line other vs ws, MadeOf line.toList vs → MadeOf other.toList ws → vs.head? = ws.head? →
      (vs.head? = some "b".toList ∨ vs.head? = some "break".toList → vs[1]? = ws[1]?) →
        l.feed o.debug line = l.feed o.debug other) ∧
    .say .err "empty command" ∉ Step.script o lines := by
  refine ⟨l.converse_eq o lines, Talk.sent_converse wait p o lines, fun line ws => words_eq_iff, fun line => ?_,
    fun line other vs ws hv hw hh hb => ?_, ?_⟩
  · refine ⟨Step.quits_iff, (words_eq_nil_iff line).symm, fun f hn hf => ?_⟩
    obtain ⟨w, rest, hw⟩ := List.exists_cons_of_ne_nil hn
    rw [Command.read, hw] at hf
    rw [hw, Step.replies_eq, hf]
  · have hx (text : String) (h : vs.head?.map String.ofList = some text) : vs.head? = some text.toList := by
      obtain ⟨w, hw, rfl⟩ := Option.map_eq_some_iff.1 h
      rw [hw, String.toList_ofList]
    refine l.feed_congr o.debug ?_ fun h => ?_
    · rw [words_eq_iff.2 hv, words_eq_iff.2 hw, List.head?_map, List.head?_map, hh]
    · rw [words_eq_iff.2 hv, List.head?_map] at h
      rw [words_eq_iff.2 hv, words_eq_iff.2 hw, List.getElem?_map, List.getElem?_map, hb (h.imp (hx _) (hx _))]
  · simp [Step.script, Step.exchange, Step.notMem_replies]

/-- A breakpoint from the options that is taken off, a line that is not read, and an end before the last line. -/
theorem Link.converse_by_script_to_quit :
    let p : Processor Ram := { bus := .empty }
    let l := Talk.link fun (_ : Talk Ram) => 2
    let o : Options := { debug := true, breakpoints := [0x0150] }
    let lines := [" \t", "\u3000b  0x150 now", "jump on", "quit", "s"]
    ((l.converse o lines).run (.ofProcessor p)).2.sent =
        [.addBreakpoint 0x0150, .start true, .queryBreakpoint 0x0150, .removeBreakpoint 0x0150, .shutdown] ∧
      words "jump on" ≠ [] ∧ Command.read "jump on" = .error (.unknownCommand "jump") ∧
      Step.replies true (words "jump on") = [.say .err "unknown command 'jump'"] ∧
      MadeOf "\u3000b  0x150 now".toList ["b".toList, "0x150".toList, "now".toList] ∧
      MadeOf "b 0x150".toList ["b".toList, "0x150".toList] ∧
      l.feed true "\u3000b  0x150 now" = l.feed true "b 0x150" := by
  intro p l o lines
  obtain ⟨-, hs, hw, hl, hf, -⟩ := converse_by_script l p (fun _ => 2) o lines
  obtain ⟨-, -, hj⟩ := hl "jump on"
  have hn : words "jump on" ≠ [] := by decide
  have hr : Command.read "jump on" = .error (.unknownCommand "jump") := by rfl
  have hv : MadeOf "\u3000b  0x150 now".toList ["b".toList, "0x150".toList, "now".toList] := (hw _ _).1 (by decide)
  have hb : MadeOf "b 0x150".toList ["b".toList, "0x150".toList] := (hw _ _).1 (by decide)
  refine ⟨?_, hn, hr, hj _ hn hr, hv, hb, hf _ _ _ _ hv hb rfl fun _ => rfl⟩
  rw [hs]
  decide

end Sm83
