import Sm83.Bus.Ram
import Sm83.Proofs.Anatomy
import Sm83.Proofs.Bits
import Sm83.Proofs.Histories

/-!
The interrupt controller over whole histories of instructions and calls: each pending line is what was last asked of
it, the mask and the upper bits stay, the first line that is enabled and pending is the one answered, and a caller
who acknowledges every answer is served the ready lines one by one, in their order, and then nothing.
-/

set_option autoImplicit false

namespace Sm83

namespace Interrupt

theorem line_lt (i : Interrupt) : i.line < 5 := by cases i <;> decide

theorem line_inj {i j : Interrupt} : i.line = j.line ↔ i = j := by cases i <;> cases j <;> decide

theorem exists_line {n : Nat} (h : n < 5) : ∃ i : Interrupt, i.line = n := by
  match n with
  | 0 => exact ⟨.vblank, rfl⟩
  | 1 => exact ⟨.lcdStat, rfl⟩
  | 2 => exact ⟨.timer, rfl⟩
  | 3 => exact ⟨.serial, rfl⟩
  | 4 => exact ⟨.joypad, rfl⟩
  | n + 5 => omega

theorem bit_flag (i : Interrupt) (n : Nat) : Byte.bit i.flag n = decide (i.line = n) := by
  have h : i.flag.toNat = 2 ^ i.line := by cases i <;> rfl
  rw [Byte.bit, h, Nat.testBit_two_pow]

theorem sorted_all : all.Pairwise fun i j => i.line < j.line := by decide

end Interrupt

namespace Byte

theorem bit_or_flag (b : Byte) (i : Interrupt) (n : Nat) :
    (b ||| i.flag).bit n = (b.bit n || decide (i.line = n)) := by
  rw [bit_or, i.bit_flag]

theorem bit_and_not_flag (b : Byte) (i : Interrupt) (n : Nat) :
    (b &&& ~~~i.flag).bit n = (b.bit n && !decide (i.line = n)) := by
  rw [bit_and, bit_not, i.bit_flag]
  rcases Nat.lt_or_ge n 8 with h | h
  · rw [decide_eq_true h, Bool.true_and]
  · rw [bit_of_le _ h, Bool.false_and, Bool.false_and]

end Byte

namespace InterruptController

def both (c : InterruptController) (n : Nat) : Bool := c.enableMask.bit n && c.pendingFlags.bit n

def ready (c : InterruptController) : List Interrupt := Interrupt.all.filter fun i => c.both i.line

theorem mem_ready (c : InterruptController) (i : Interrupt) : i ∈ c.ready ↔ c.both i.line = true := by
  simp [ready, i.mem_all]

theorem sorted_ready (c : InterruptController) : c.ready.Pairwise fun i j => i.line < j.line :=
  Interrupt.sorted_all.sublist List.filter_sublist

theorem length_ready (c : InterruptController) : c.ready.length ≤ 5 := List.length_filter_le _ _

theorem pending?_eq (c : InterruptController) : c.pending? = if c.masterEnable then c.ready.head? else none := by
  rw [ready, List.head?_filter]
  rfl

theorem head?_ready_eq_some (c : InterruptController) (i : Interrupt) :
    c.ready.head? = some i ↔ c.both i.line = true ∧ ∀ n < i.line, c.both n = false := by
  have hs := c.sorted_ready
  rw [← c.mem_ready]
  have hb : (∀ n < i.line, c.both n = false) ↔ ∀ j ∈ c.ready, ¬ j.line < i.line := by
    refine ⟨fun h j hj hlt => ?_, fun h n hn => ?_⟩
    · rw [c.mem_ready, h _ hlt] at hj
      cases hj
    · obtain ⟨j, rfl⟩ := Interrupt.exists_line (Nat.lt_trans hn i.line_lt)
      have hj := fun hm => h j ((c.mem_ready j).2 hm) hn
      simpa using hj
  rw [hb]
  generalize c.ready = l at hs ⊢
  cases l with
  | nil => simp
  | cons k l =>
    obtain ⟨hk, -⟩ := List.pairwise_cons.1 hs
    refine ⟨fun h => ?_, fun h => ?_⟩
    · cases h
      refine ⟨List.mem_cons_self, fun j hj => ?_⟩
      rcases List.mem_cons.1 hj with rfl | hj
      · exact Nat.lt_irrefl _
      · exact Nat.lt_asymm (hk j hj)
    · obtain ⟨hi, hl⟩ := h
      rcases List.mem_cons.1 hi with rfl | hi
      · rfl
      · exact absurd (hk i hi) (hl k List.mem_cons_self)

theorem pending?_eq_some (c : InterruptController) (i : Interrupt) : c.pending? = some i ↔
    c.masterEnable = true ∧ c.both i.line = true ∧ ∀ n < i.line, c.both n = false := by
  rw [pending?_eq]
  cases hm : c.masterEnable with
  | false => simp
  | true => simpa using c.head?_ready_eq_some i

example : (⟨true, 0x1E, 0xF7⟩ : InterruptController).ready = [.lcdStat, .timer, .joypad] := by decide

/-- The controller after one round: the line that is answered is acknowledged. -/
def served (c : InterruptController) : InterruptController :=
  match c.pending? with
  | some i => c.acknowledge i
  | none => c

def serve (c : InterruptController) : Nat → InterruptController
  | 0 => c
  | n + 1 => (c.serve n).served

theorem ready_acknowledge (c : InterruptController) (i : Interrupt) :
    (c.acknowledge i).ready = c.ready.filter fun j => !decide (i = j) := by
  simp only [ready, List.filter_filter]
  refine List.filter_congr fun j _ => ?_
  have hj : decide (i.line = j.line) = decide (i = j) := by simp [Interrupt.line_inj]
  simp only [both, acknowledge, Byte.bit_and_not_flag, hj]
  cases c.enableMask.bit j.line <;> cases c.pendingFlags.bit j.line <;> simp

theorem masterEnable_served (c : InterruptController) : c.served.masterEnable = c.masterEnable := by
  unfold served
  split <;> rfl

theorem ready_served {c : InterruptController} (h : c.masterEnable = true) : c.served.ready = c.ready.tail := by
  have hp := c.pending?_eq
  rw [h, if_pos rfl] at hp
  have hs := c.sorted_ready
  unfold served
  rw [hp]
  cases hr : c.ready with
  | nil => exact hr
  | cons i l =>
    simp only [List.head?_cons, List.tail_cons, ready_acknowledge, hr]
    rw [hr] at hs
    obtain ⟨hi, -⟩ := List.pairwise_cons.1 hs
    -- the lines are strictly sorted, so the first one is not among the others
    rw [List.filter_cons_of_neg (by simp), List.filter_eq_self]
    intro j hj
    have hne : i ≠ j := fun he => Nat.lt_irrefl _ (he ▸ hi j hj)
    simpa using hne

theorem serve_spec {c : InterruptController} (h : c.masterEnable = true) (n : Nat) :
    (c.serve n).masterEnable = true ∧ (c.serve n).ready = c.ready.drop n := by
  induction n with
  | zero => exact ⟨h, rfl⟩
  | succ n ih =>
    obtain ⟨hm, hr⟩ := ih
    refine ⟨(masterEnable_served _).trans hm, ?_⟩
    rw [serve, ready_served hm, hr, List.tail_drop]

theorem pending?_serve {c : InterruptController} (h : c.masterEnable = true) (n : Nat) :
    (c.serve n).pending? = c.ready[n]? := by
  obtain ⟨hm, hr⟩ := serve_spec h n
  rw [pending?_eq, hm, if_pos rfl, hr, List.head?_drop]

theorem pending?_serve_of_le {c : InterruptController} (h : c.masterEnable = true) {n : Nat} (hn : 5 ≤ n) :
    (c.serve n).pending? = none := by
  rw [pending?_serve h]
  exact List.getElem?_eq_none (Nat.le_trans c.length_ready hn)

/-- What an instruction does to the controller, by its code: EI and RETI enable, DI disables. -/
def obeying (c : InterruptController) (op : Opcode) : InterruptController :=
  { c with masterEnable :=
      if op.code = 0xFB ∨ op.code = 0xD9 then true else if op.code = 0xF3 then false else c.masterEnable }

theorem govern_eq (c : InterruptController) (op : Opcode) : c.govern op.form.master? = c.obeying op := by
  rw [govern, op.master?_eq, obeying]
  split
  · rfl
  · split <;> rfl

end InterruptController

/-- What can be done to a processor and its controller: instructions, and calls. -/
inductive Deed where
  | step
  | execute (op : Opcode)
  | request (i : Interrupt)
  | acknowledge (i : Interrupt)
  | enable
  | disable
  deriving DecidableEq, Repr

namespace Deed

def asks? (i : Interrupt) : Deed → Option Bool
  | .request j => if j = i then some true else none
  | .acknowledge j => if j = i then some false else none
  | .step | .execute _ | .enable | .disable => none

end Deed

namespace Processor

variable {μ : Type} [Bus μ]

theorem interrupts_execute (p : Processor μ) (op : Opcode) :
    (p.execute op).2.interrupts = p.interrupts.obeying op := by
  rw [← InterruptController.govern_eq]
  exact (p.alters_execute op).interrupts

theorem interrupts_step (p : Processor μ) : p.step.2.interrupts = p.interrupts.obeying p.next := by
  rw [← InterruptController.govern_eq]
  exact p.alters_step.interrupts

def apply (p : Processor μ) : Deed → Processor μ
  | .step => p.step.2
  | .execute op => (p.execute op).2
  | .request i => { p with interrupts := p.interrupts.request i }
  | .acknowledge i => { p with interrupts := p.interrupts.acknowledge i }
  | .enable => { p with interrupts := p.interrupts.enable }
  | .disable => { p with interrupts := p.interrupts.disable }

def undergo (p : Processor μ) (ds : List Deed) : Processor μ := ds.foldl apply p

theorem enableMask_apply (p : Processor μ) (d : Deed) :
    (p.apply d).interrupts.enableMask = p.interrupts.enableMask := by
  cases d with
  | step => rw [apply, interrupts_step, InterruptController.obeying]
  | execute op => rw [apply, interrupts_execute, InterruptController.obeying]
  | _ => rfl

theorem bit_apply (p : Processor μ) (d : Deed) (i : Interrupt) :
    (p.apply d).interrupts.pendingFlags.bit i.line =
      (d.asks? i).getD (p.interrupts.pendingFlags.bit i.line) := by
  cases d with
  | step => rw [apply, interrupts_step, InterruptController.obeying, Deed.asks?, Option.getD_none]
  | execute op => rw [apply, interrupts_execute, InterruptController.obeying, Deed.asks?, Option.getD_none]
  | request j =>
    simp only [apply, InterruptController.request, Byte.bit_or_flag, Interrupt.line_inj, Deed.asks?]
    split <;> simp_all
  | acknowledge j =>
    simp only [apply, InterruptController.acknowledge, Byte.bit_and_not_flag, Interrupt.line_inj, Deed.asks?]
    split <;> simp_all
  | enable | disable => rfl

theorem bit_apply_of_le (p : Processor μ) (d : Deed) {n : Nat} (h : 5 ≤ n) :
    (p.apply d).interrupts.pendingFlags.bit n = p.interrupts.pendingFlags.bit n := by
  cases d with
  | step => rw [apply, interrupts_step, InterruptController.obeying]
  | execute op => rw [apply, interrupts_execute, InterruptController.obeying]
  | request i | acknowledge i =>
    have hi : i.line ≠ n := fun he => by have := i.line_lt; omega
    simp [apply, InterruptController.request, InterruptController.acknowledge, Byte.bit_or_flag,
      Byte.bit_and_not_flag, hi]
  | enable | disable => rfl

theorem enableMask_undergo (p : Processor μ) (ds : List Deed) :
    (p.undergo ds).interrupts.enableMask = p.interrupts.enableMask :=
  foldl_same (·.interrupts.enableMask) enableMask_apply p ds

theorem bit_undergo_of_le (p : Processor μ) (ds : List Deed) {n : Nat} (h : 5 ≤ n) :
    (p.undergo ds).interrupts.pendingFlags.bit n = p.interrupts.pendingFlags.bit n :=
  foldl_same (·.interrupts.pendingFlags.bit n) (fun q d => q.bit_apply_of_le d h) p ds

theorem bit_undergo (p : Processor μ) (ds : List Deed) (i : Interrupt) :
    (p.undergo ds).interrupts.pendingFlags.bit i.line =
      (ds.filterMap (Deed.asks? i)).getLast?.getD (p.interrupts.pendingFlags.bit i.line) :=
  foldl_last (·.interrupts.pendingFlags.bit i.line) (fun q d => q.bit_apply d i) p ds

/-- The controller after any history, and at any point of it. -/
theorem interrupts_undergo (p : Processor μ) (ds : List Deed) :
    let q := p.undergo ds
    let c := q.interrupts
    (∀ i, c.pendingFlags.bit i.line =
        (ds.filterMap (Deed.asks? i)).getLast?.getD (p.interrupts.pendingFlags.bit i.line)) ∧
      c.enableMask = p.interrupts.enableMask ∧
      (∀ n, 5 ≤ n → c.pendingFlags.bit n = p.interrupts.pendingFlags.bit n) ∧
      q.step.2.interrupts = c.obeying q.next ∧ (∀ op, (q.execute op).2.interrupts = c.obeying op) ∧
      (∀ i, c.pending? = some i ↔
        c.masterEnable = true ∧ c.both i.line = true ∧ ∀ n < i.line, c.both n = false) ∧
      c.vector? = c.pending?.map (fun i => 0x40 + 8 * UInt16.ofNat i.line) ∧
      (c.masterEnable = true → (∀ n, (c.serve n).pending? = c.ready[n]?) ∧
        (∀ i, i ∈ c.ready ↔ c.both i.line = true) ∧ c.ready.Pairwise (fun i j => i.line < j.line) ∧
        ∀ n, 5 ≤ n → (c.serve n).pending? = none) := by
  intro q c
  refine ⟨p.bit_undergo ds, p.enableMask_undergo ds, fun n => p.bit_undergo_of_le ds, q.interrupts_step,
    q.interrupts_execute, c.pending?_eq_some, rfl, fun h => ?_⟩
  exact ⟨InterruptController.pending?_serve h, c.mem_ready, c.sorted_ready,
    fun n => InterruptController.pending?_serve_of_le h⟩

/-- Two lines stay requested of three, and are served in their order whatever the upper bits hold. -/
theorem interrupts_undergo_of_three :
    let p : Processor Ram :=
      { bus := .empty, interrupts := { masterEnable := true, enableMask := 0xFF, pendingFlags := 0xE0 } }
    let c := (p.undergo [.request .joypad, .request .timer, .step, .request .vblank,
      .acknowledge .timer]).interrupts
    c.masterEnable = true ∧ c.pending? = some .vblank ∧ (c.serve 1).pending? = some .joypad ∧
      (c.serve 2).pending? = none := by
  intro p c
  have hm : c.masterEnable = true := by decide
  obtain ⟨-, -, -, -, -, -, -, hs⟩ := interrupts_undergo p [.request .joypad, .request .timer, .step,
    .request .vblank, .acknowledge .timer]
  obtain ⟨hs, -⟩ := hs hm
  have hr : c.ready = [.vblank, .joypad] := by decide
  refine ⟨hm, (hs 0).trans ?_, (hs 1).trans ?_, (hs 2).trans ?_⟩
  · exact congrArg (fun l => l[0]?) hr
  · exact congrArg (fun l => l[1]?) hr
  · exact congrArg (fun l => l[2]?) hr

end Processor

end Sm83
