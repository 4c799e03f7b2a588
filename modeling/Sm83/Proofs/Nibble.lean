import Sm83.Proofs.Course
import Sm83.Proofs.Footprint
import Sm83.Proofs.Turns

/-!
The lower nibble of F, which is zero and stays zero: a processor whose F has it changes its registers only through
setters that mask it. So what a push of AF puts on the stack has it too, and so has every text of the registers.
-/

set_option autoImplicit false

namespace Sm83

namespace Registers

def Masked (r : Registers) : Prop := r.get .f &&& 0x0F = 0

instance (r : Registers) : Decidable r.Masked := inferInstanceAs (Decidable (_ = _))

theorem masked_powerUp : powerUp.Masked := by decide

namespace Masked

variable {r : Registers}

theorem set (h : r.Masked) (x : Reg8) (v : Byte) : (r.set x v).Masked := by
  cases x with
  | a =>
    have ha : (r.set .a v).get .f = r.get .f := get_set_of_ne r v (by decide)
    rw [Masked, ha]
    exact h
  | f =>
    rw [Masked, get_set_self, if_pos rfl, UInt8.and_assoc]
    exact UInt8.and_zero
  | _ => exact h

theorem setPair (h : r.Masked) (x : Pair) (v : Word) : (r.setPair x v).Masked := by
  cases x with
  | af =>
    have hv : (v &&& 0xFFF0).toUInt8 &&& 0x0F = 0 := by
      rw [UInt16.toUInt8_and, UInt8.and_assoc]
      exact UInt8.and_zero
    exact hv
  | _ => exact h

theorem toNat_mod (h : r.Masked) : r.af.toNat % 16 = 0 := by
  have hn : r.af.toNat % 256 &&& (2 ^ 4 - 1) = 0 := by
    simpa [get, Word.low] using congrArg UInt8.toNat h
  rw [Nat.and_two_pow_sub_one_eq_mod] at hn
  omega

theorem render (h : r.Masked) :
    ∃ ds tail, ds.length = 3 ∧ r.render.toList = "AF: 0x".toList ++ (ds ++ '0' :: tail) := by
  have hd : Hex.digits .upper 4 r.af.toNat = Hex.digits .upper 3 (r.af.toNat / 16) ++ ['0'] := by
    simp [Hex.digits, Hex.digit, h.toNat_mod]
  have hr : ∃ tail, r.render.toList =
      "AF: 0x".toList ++ (Hex.digits .upper 3 (r.af.toNat / 16) ++ '0' :: tail) := by
    simp only [Registers.render, Hex.word, Hex.render, hd, String.toList_append, String.toList_ofList, toString,
      List.append_assoc]
    exact ⟨_, rfl⟩
  obtain ⟨tail, ht⟩ := hr
  exact ⟨_, tail, Hex.length_digits _ _ _, ht⟩

end Masked

end Registers

variable {μ : Type}

theorem Processor.Alters.masked {p q : Processor μ} (h : p.Alters q) (hp : p.regs.Masked) : q.regs.Masked := by
  induction h with
  | refl => exact hp
  | bus m _ ih => exact ih
  | set x v _ ih => exact ih.set x v
  | setPair x v _ ih => exact ih.setPair x v
  | jump a _ ih => exact ih

variable [Bus μ]

namespace Processor

theorem masked_execute {p : Processor μ} (h : p.regs.Masked) (op : Opcode) : (p.execute op).2.regs.Masked :=
  (p.alters_execute op).masked h

theorem masked_step {p : Processor μ} (h : p.regs.Masked) : p.step.2.regs.Masked := p.alters_step.masked h

theorem masked_steps {p : Processor μ} (h : p.regs.Masked) (n : Nat) : (p.steps n).regs.Masked := by
  induction n with
  | zero => exact h
  | succ n ih => exact masked_step ih

theorem accesses_push_af (p : Processor μ) : (p.traced.execute ⟨0xF5⟩).2.bus.accesses =
    #[.write (p.regs.sp - 2) (p.regs.get .f), .write (p.regs.sp - 2 + 1) (p.regs.get .a)] := by
  have hf : (⟨0xF5⟩ : Opcode).form = .inherent (.push .af) := by decide
  simp only [execute, hf, Form.fetch, Instruction.perform, Inherent.perform]
  rfl

end Processor

theorem Move.alters {s : Sequencer μ} {hand last : Option Opcode} {r : Reaction μ} (h : Move s hand r last) :
    Quiet r.events ∧ s.processor.Alters r.next.processor ∨ ∃ op, r = s.commit op := by
  cases h with
  | drop r hp =>
    refine .inl ⟨?_, ?_⟩
    · cases r <;> simp [Sequencer.react, hp]
    · have hn : (s.react (some r)).next = s := by simp [Sequencer.react, hp]
      rw [hn]
      exact .refl
  | settle =>
    refine .inl ⟨by simp, ?_⟩
    rw [Sequencer.next_settle]
    exact .refl
  | decode => exact .inl ⟨by simp, Processor.Alters.refl.readByte _⟩
  | lock =>
    refine .inl ⟨by simp, ?_⟩
    rw [Reaction.next_andThen, Sequencer.processor_lock]
    exact Processor.Alters.refl.readByte _
  | pause => exact .inl ⟨by simp, .refl⟩
  | suspend | release =>
    refine .inl ⟨by simp, ?_⟩
    rw [Sequencer.processor_announceRun]
    exact .refl
  | commit => exact .inr ⟨_, rfl⟩

theorem Course.masked_follow {p : Processor μ} (h : p.regs.Masked) (offers : List (Option Request)) :
    let c := (ofProcessor p).follow offers
    c.now.processor.regs.Masked ∧ ∀ regs ∈ Event.commits c.told, regs.Masked := by
  refine follow_holds (J := fun _ told s _ => s.processor.regs.Masked ∧
    ∀ regs ∈ Event.commits told, regs.Masked) p ⟨h, by simp [Event.commits]⟩ ?_ ?_ offers
  · intro base told s hand r h _
    obtain ⟨hs, ht⟩ := h
    refine ⟨?_, ?_⟩
    · rw [Sequencer.next_take, Sequencer.processor_obey]
      split
      · exact Registers.masked_powerUp.set .f _
      · exact hs
    · rw [Event.commits_append, Event.commits_of_quiet (s.quiet_take r), List.append_nil]
      exact ht
  · intro base told s hand r last h hm
    obtain ⟨hs, ht⟩ := h
    rw [Event.commits_append]
    rcases hm.alters with ⟨hq, ha⟩ | ⟨op, rfl⟩
    · rw [Event.commits_of_quiet hq, List.append_nil]
      exact ⟨ha.masked hs, ht⟩
    · have hx := Processor.masked_execute hs op
      rw [Sequencer.commits_commit, Sequencer.processor_commit]
      refine ⟨hx, fun regs hr => ?_⟩
      rcases List.mem_append.1 hr with hr | hr
      · exact ht regs hr
      · rw [List.mem_singleton.1 hr]
        exact hx

def Processor.PushesMasked (p : Processor μ) : Prop :=
  ∃ f, f &&& 0x0F = 0 ∧ (p.traced.execute ⟨0xF5⟩).2.bus.accesses =
    #[.write (p.regs.sp - 2) f, .write (p.regs.sp - 2 + 1) (p.regs.get .a)]

theorem Registers.Masked.pushes {p : Processor μ} (h : p.regs.Masked) : p.PushesMasked :=
  ⟨p.regs.get .f, h, p.accesses_push_af⟩

/-- After power-up, and from any registers where the lower nibble of F is zero, it is zero after every step and along
every run of a sequencer, in what a push of AF stores and in the text of every commit. -/
theorem Processor.low_nibble_zero : Registers.powerUp.Masked ∧ ∀ p : Processor μ, p.regs.Masked →
    (∀ n, (p.steps n).regs.Masked ∧ (p.steps n).PushesMasked) ∧
      ∀ offers, let c := (Course.ofProcessor p).follow offers
        c.now.processor.regs.Masked ∧ c.now.processor.PushesMasked ∧
          ∀ regs ∈ Event.commits c.told, regs.Masked ∧
            ∃ ds tail, ds.length = 3 ∧ regs.render.toList = "AF: 0x".toList ++ (ds ++ '0' :: tail) := by
  refine ⟨Registers.masked_powerUp, fun p h => ⟨fun n => ?_, fun offers => ?_⟩⟩
  · have hn := masked_steps h n
    exact ⟨hn, hn.pushes⟩
  · obtain ⟨hp, hc⟩ := Course.masked_follow h offers
    exact ⟨hp, hp.pushes, fun regs hr => ⟨hc regs hr, (hc regs hr).render⟩⟩

/-- A word of all ones on the stack reaches AF without its lowest nibble, and goes back so. -/
theorem Processor.low_nibble_zero_after_pop :
    let p : Processor Ram :=
      { bus := ((Ram.empty.set 0x0100 0xF1).set 0x0080 0xFF).set 0x0081 0xFF
        regs := { Registers.powerUp with sp := 0x0080 } }
    p.regs.Masked ∧ (p.steps 1).regs.af = 0xFFF0 ∧ (p.steps 1).PushesMasked := by
  intro p
  have h : p.regs.Masked := by decide
  exact ⟨h, by decide, ((low_nibble_zero.2 p h).1 1).2⟩

end Sm83
