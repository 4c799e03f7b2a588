import Sm83.Proofs.Announcements
import Sm83.Proofs.Moves

/-!
What is told when an instruction is fetched: the code, or the fault that was met in its place. Nothing else that
a sequencer does tells of either.
-/

set_option autoImplicit false

namespace Sm83

def Event.isFetch : Event → Bool
  | .note (.decoded _) | .note (.faulted _ _) | .alert _ | .entered .halted => true
  | _ => false

def Unread (es : List Event) : Prop := ∀ e ∈ es, e.isFetch = false

@[simp] theorem unread_nil : Unread [] := by simp [Unread]

@[simp] theorem unread_cons (e : Event) (es : List Event) :
    Unread (e :: es) ↔ e.isFetch = false ∧ Unread es := by
  simp [Unread]

@[simp] theorem unread_append (es fs : List Event) : Unread (es ++ fs) ↔ Unread es ∧ Unread fs := by
  simp [Unread, or_imp, forall_and]

theorem Unread.filter_eq_nil {es : List Event} (h : Unread es) : es.filter Event.isFetch = [] := by
  simpa [Unread] using h

theorem Event.isFetch_of_isRemark {e : Event} (h : e.isRemark = true) : e.isFetch = false := by
  cases e with
  | note n => cases n <;> first | rfl | cases h
  | _ => first | rfl | cases h

/-! The texts that tell of a fault, digit by digit. -/

/-- A digit of base sixteen, as the messages write it. -/
def figure (n : Nat) : Char :=
  ['0', '1', '2', '3', '4', '5', '6', '7', '8', '9', 'A', 'B', 'C', 'D', 'E', 'F'].getD n ' '

def Byte.figures (b : Byte) : String := .ofList ['0', 'x', figure (b.toNat / 16), figure (b.toNat % 16)]

def Word.figures (w : Word) : String :=
  .ofList ['0', 'x', figure (w.toNat / 4096), figure (w.toNat / 256 % 16), figure (w.toNat / 16 % 16),
    figure (w.toNat % 16)]

theorem Hex.digit_upper (n : Nat) : digit .upper n = figure (n % 16) := by
  have h : ∀ k < 16, digit .upper k = figure k := by decide
  have hn : digit .upper n = digit .upper (n % 16) := by simp [digit]
  rw [hn, h _ (Nat.mod_lt _ (by decide))]

theorem Hex.byte_eq (b : Byte) : byte b = b.figures := by
  have hb := b.toNat_lt
  have hd : b.toNat / 16 % 16 = b.toNat / 16 := Nat.mod_eq_of_lt (by omega)
  apply String.toList_inj.1
  simp [byte, render, digits, digit_upper, Byte.figures, hd]

theorem Hex.word_eq (w : Word) : word w = w.figures := by
  have hw := w.toNat_lt
  have hd : w.toNat / 4096 % 16 = w.toNat / 4096 := Nat.mod_eq_of_lt (by omega)
  apply String.toList_inj.1
  simp [word, render, digits, digit_upper, Word.figures, Nat.div_div_eq_div_mul, hd]

theorem Fault.message_eq (f : Fault) :
    f.message = "INSTRUCTION: " ++ f.opcode.code.figures ++ "\nAt ROM Offset: " ++ f.pc.figures := by
  rw [← Hex.byte_eq, ← Hex.word_eq]
  rfl

example : (⟨⟨0xD3⟩, 0x0101⟩ : Fault).message = "INSTRUCTION: 0xD3\nAt ROM Offset: 0x0101" := by
  decide

theorem Note.text_faulted (f : Fault) (r : Registers) :
    (Note.faulted f r).text = "GB CPU locked: invalid opcode " ++ f.opcode.code.figures ++ " at PC=" ++
      f.pc.figures ++ " (" ++ r.render ++ ")" := by
  rw [← Hex.byte_eq, ← Hex.word_eq]
  rfl

namespace Processor

variable {μ : Type} [Bus μ]

def next (p : Processor μ) : Opcode := ⟨(Bus.read p.bus p.regs.pc).1⟩

theorem decode_fst (p : Processor μ) :
    p.decode.1 = if p.next.isHole then .error ⟨p.next, p.regs.pc⟩ else .ok p.next := rfl

theorem next_of_ok {p : Processor μ} {op : Opcode} (h : p.decode.1 = .ok op) :
    op = p.next ∧ p.next.isHole = false := by
  rw [decode_fst] at h
  split at h
  next => cases h
  next hh =>
    cases h
    exact ⟨rfl, by simpa using hh⟩

theorem next_of_error {p : Processor μ} {f : Fault} (h : p.decode.1 = .error f) :
    f = ⟨p.next, p.regs.pc⟩ ∧ p.next.isHole = true := by
  rw [decode_fst] at h
  split at h
  next hh =>
    cases h
    exact ⟨rfl, hh⟩
  next => cases h

theorem step_of_hole {p : Processor μ} (h : p.next.isHole = true) :
    p.step = (.error ⟨p.next, p.regs.pc⟩, (p.readByte p.regs.pc).2) := by
  have hd : p.decode = (.error ⟨p.next, p.regs.pc⟩, (p.readByte p.regs.pc).2) :=
    Prod.ext (by rw [decode_fst, if_pos h]) rfl
  simp [step, hd]

theorem step_of_next {p : Processor μ} (h : p.next.isHole = false) :
    p.step = (.ok ((p.readByte p.regs.pc).2.execute p.next).1, ((p.readByte p.regs.pc).2.execute p.next).2) := by
  have hd : p.decode = (.ok p.next, (p.readByte p.regs.pc).2) :=
    Prod.ext (by rw [decode_fst, h, if_neg Bool.false_ne_true]) rfl
  simp [step, hd]

/-- The processor after `n` steps; a fault leaves it where it is. -/
def steps (p : Processor μ) : Nat → Processor μ
  | 0 => p
  | n + 1 => (p.steps n).step.2

end Processor

namespace Sequencer

variable {μ : Type}

theorem unread_announce (s : Sequencer μ) {m : Mode} (h : m ≠ .halted) : Unread (s.announce m).events := by
  rw [events_announce]
  split
  · simp
  · cases m <;> simp_all [Event.isFetch]

@[simp] theorem unread_announceRun (s : Sequencer μ) : Unread s.announceRun.events := by
  unfold announceRun
  split
  · exact s.unread_announce s.activeMode_ne_halted
  · simp

theorem unread_obey (s : Sequencer μ) (r : Request) : Unread (s.obey r).events := by
  have h := s.obeyed r
  generalize s.obey r = t at h ⊢
  cases h with
  | heard run breakpoints leaving es hr he => exact fun e hm => Event.isFetch_of_isRemark (he e hm)
  | run => simp
  | stop => exact unread_announce _ (by simp)
  | reset => exact unread_announce _ (by simp)

@[simp] theorem unread_take (s : Sequencer μ) (r : Request) : Unread (s.take r).events := by
  simpa [events_take, Event.isFetch] using s.unread_obey r

@[simp] theorem unread_settle (s : Sequencer μ) : Unread s.settle.events := by
  intro e h
  rw [mem_settle h]
  rfl

@[simp] theorem unread_finish (s : Sequencer μ) (r : Completion) : Unread (s.finish r).events := by
  intro e h
  rcases mem_finish h with rfl | rfl | rfl <;> rfl

@[simp] theorem unread_notes (r : Completion) : Unread (notes r) := by
  intro e h
  rcases mem_notes h with ⟨w, rfl⟩ | ⟨n, rfl⟩ <;> rfl

theorem events_lock {s : Sequencer μ} (h : s.mode ≠ .halted) (f : Fault) :
    (s.lock f).events = [.note (.faulted f s.processor.regs), .alert f.message,
      .note (.changed s.mode .halted), .entered .halted] ++
        if s.leaving then [.note .closed] else [] := by
  simp [lock, events_announce, events_settle, next_announce, h]

theorem fetch_lock {s : Sequencer μ} (h : s.mode ≠ .halted) (f : Fault) :
    (s.lock f).events.filter Event.isFetch =
      [.note (.faulted f s.processor.regs), .alert f.message, .entered .halted] := by
  rw [events_lock h]
  split <;> rfl

variable [Bus μ]

@[simp] theorem unread_check (s : Sequencer μ) : Unread s.check.events := by
  intro e h
  rw [mem_check h]
  rfl

@[simp] theorem unread_commit (s : Sequencer μ) (op : Opcode) : Unread (s.commit op).events := by
  have h : Unread (if s.run.debug then [.note (.showing s.processor.regs)] else []) := by
    split <;> simp [Event.isFetch]
  simp [commit_eq, retire, h, Event.isFetch]

@[simp] theorem unread_consider (s : Sequencer μ) (op : Opcode) : Unread (s.consider op).events := by
  unfold consider
  split
  · simp
  · split
    · simp
    · split <;> simp

theorem unread_react (s : Sequencer μ) (r : Request) : Unread (s.react (some r)).events := by
  cases hp : s.phase with
  | rest => simp [react, hp]
  | gather => simp [react, hp]
  | held op hold =>
    cases hold with
    | pause =>
      simp only [react, hp, Reaction.events_andThen, unread_append]
      refine ⟨by simp, ?_⟩
      split <;> simp
    | step =>
      simp only [react, hp, Reaction.events_andThen, unread_append]
      refine ⟨by simp, ?_⟩
      split <;> simp
  | gone => cases r <;> simp [react, hp, Event.isFetch]

variable {s : Sequencer μ}

theorem react_of_fetch {o : Option Request} {e : Event} (h : e ∈ (s.react o).events)
    (he : e.isFetch = true) :
    o = none ∧ s.phase = .gather ∧ s.run.active = true ∧ s.react none = s.begin := by
  cases o with
  | none =>
    cases hp : s.phase with
    | gather =>
      by_cases ha : s.run.active = true
      · exact ⟨rfl, rfl, ha, by simp [react, hp, ha]⟩
      · have hr : s.react none = s.settle := by simp [react, hp, ha]
        rw [hr] at h
        simp [s.unread_settle e h] at he
    | held op hold => cases hold <;> simp [react, hp] at h
    | rest => simp [react, hp] at h
    | gone => simp [react, hp] at h
  | some r => simp [s.unread_react r e h] at he

/-- A reaction that tells of a fetch, but of no instruction, meets the hole at the program counter. -/
theorem react_of_fault {o : Option Request} {e : Event} (h : e ∈ (s.react o).events) (he : e.isFetch = true)
    (hn : ∀ op, e ≠ .note (.decoded op)) :
    o = none ∧ s.phase = .gather ∧ s.run.active = true ∧ s.processor.next.isHole = true ∧
      s.react none = s.check.andThen (·.lock ⟨s.processor.next, s.processor.regs.pc⟩) := by
  obtain ⟨rfl, hp, ha, hr⟩ := react_of_fetch h he
  rw [hr, begin_eq] at h
  rw [hr, begin_eq]
  cases hd : s.processor.decode.1 with
  | error f =>
    obtain ⟨rfl, hh⟩ := Processor.next_of_error hd
    exact ⟨rfl, hp, ha, hh, rfl⟩
  | ok op =>
    simp only [hd, Reaction.events_andThen, List.mem_append] at h
    rcases h with (h | h) | h
    · simp [s.unread_check e h] at he
    · exact absurd (by simpa using h) (hn op)
    · simp [unread_consider _ _ e h] at he

end Sequencer

theorem Move.unread {μ : Type} [Bus μ] {s : Sequencer μ} {hand last : Option Opcode} {r : Reaction μ}
    (h : Move s hand r last) : Unread r.events ∨ hand = none ∧ s.phase = .gather ∧ s.run.active = true ∧
      ((∃ op, s.processor.decode.1 = .ok op ∧ r = s.check.andThen (·.saying (.decoded op))) ∨
        ∃ f, s.processor.decode.1 = .error f ∧ r = s.check.andThen (·.lock f)) := by
  cases h with
  | drop r hp => exact .inl (s.unread_react r)
  | decode hp ha hd => exact .inr ⟨rfl, hp, ha, .inl ⟨_, hd, rfl⟩⟩
  | lock hp ha hd => exact .inr ⟨rfl, hp, ha, .inr ⟨_, hd, rfl⟩⟩
  | _ => exact .inl (by simp)

end Sm83
