import Sm83.Proofs.Storage

/-!
The stack in the address space. It grows downward and wraps with the addresses, so 32768 words fill the space
exactly; as long as no more are on it at a time, each word comes back as it was put there and nothing else is lost.
-/

set_option autoImplicit false

namespace Sm83

inductive StackAccess where
  | push (v : Word)
  | pop
  deriving DecidableEq, Repr

namespace StackAccess

/-- The words that are on the stack after the accesses, the last one first, if none takes more than `vs` and what
was pushed. -/
def left? (vs : List Word) : List StackAccess → Option (List Word)
  | [] => some vs
  | .push v :: as => left? (v :: vs) as
  | .pop :: as =>
    match vs with
    | [] => none
    | _ :: vs => left? vs as

/-- Every push is popped again, and every pop has its push. -/
def Bracketed (as : List StackAccess) : Prop := left? [] as = some []

instance (as : List StackAccess) : Decidable (Bracketed as) := inferInstanceAs (Decidable (_ = _))

/-- The greatest number of words that are on the stack at a time, if it begins with `n` of them. -/
def depth (n : Nat) : List StackAccess → Nat
  | [] => n
  | .push _ :: as => max n (depth (n + 1) as)
  | .pop :: as => max n (depth (n - 1) as)

theorem left?_append (vs : List Word) (as bs : List StackAccess) :
    left? vs (as ++ bs) = (left? vs as).bind fun us => left? us bs := by
  induction as generalizing vs with
  | nil => rfl
  | cons a as ih =>
    cases a with
    | push v => exact ih (v :: vs)
    | pop =>
      cases vs with
      | nil => rfl
      | cons v vs => exact ih vs

theorem left?_above {vs us : List Word} {as : List StackAccess} (h : left? vs as = some us) (ws : List Word) :
    left? (vs ++ ws) as = some (us ++ ws) := by
  induction as generalizing vs with
  | nil =>
    cases h
    rfl
  | cons a as ih =>
    cases a with
    | push v =>
      have hv : left? (v :: vs) as = some us := h
      exact ih hv
    | pop =>
      cases vs with
      | nil => cases h
      | cons v vs =>
        have hv : left? vs as = some us := h
        exact ih hv

theorem le_depth (n : Nat) (as : List StackAccess) : n ≤ depth n as := by
  cases as with
  | nil => exact Nat.le_refl n
  | cons a as => cases a <;> exact Nat.le_max_left _ _

theorem depth_append_left (n : Nat) (as bs : List StackAccess) : depth n as ≤ depth n (as ++ bs) := by
  induction as generalizing n with
  | nil => exact le_depth n bs
  | cons a as ih =>
    cases a with
    | push v =>
      have h := ih (n + 1)
      simp only [List.cons_append, depth]
      omega
    | pop =>
      have h := ih (n - 1)
      simp only [List.cons_append, depth]
      omega

theorem Bracketed.nest {as bs : List StackAccess} (ha : Bracketed as) (v : Word) (hb : Bracketed bs) :
    Bracketed (as ++ .push v :: (bs ++ [.pop])) := by
  have hv : left? [v] bs = some [v] := left?_above hb [v]
  simp [Bracketed, left?_append, left?, show left? [] as = some [] from ha, hv]

theorem exists_push {as : List StackAccess} {v : Word} {vs : List Word} (h : left? [] as = some (v :: vs)) :
    ∃ earlier inner, as = earlier ++ .push v :: inner ∧ Bracketed inner ∧ left? [] earlier = some vs := by
  -- on the length, as what comes before a pop falls into two shorter parts
  induction hn : as.length using Nat.strongRecOn generalizing as v vs with
  | ind n ih =>
    obtain rfl | ⟨bs, a, rfl⟩ := as.eq_nil_or_concat
    · cases h
    · rw [List.concat_eq_append] at *
      rw [left?_append, Option.bind_eq_some_iff] at h
      obtain ⟨us, hb, ha⟩ := h
      cases a with
      | push w =>
        cases ha
        exact ⟨bs, [], rfl, rfl, hb⟩
      | pop =>
        cases us with
        | nil => cases ha
        | cons w ws =>
          cases ha
          -- the word that is popped here was pushed above `v`, which was pushed before it
          obtain ⟨middle, upper, rfl, hu, hm⟩ := ih _ (by simp [← hn]) hb rfl
          obtain ⟨earlier, lower, rfl, hl, he⟩ := ih _ (by simp [← hn]) hm rfl
          exact ⟨earlier, lower ++ .push w :: (upper ++ [.pop]), by simp, hl.nest w hu, he⟩

end StackAccess

namespace Word

theorem add_two_add_ofNat (a : Word) (k : Nat) : a + 2 + UInt16.ofNat k = a + UInt16.ofNat (k + 2) := by
  rw [UInt16.ofNat_add, UInt16.add_assoc, UInt16.add_comm (UInt16.ofNat k)]
  rfl

theorem sub_ofNat_sub (a : Word) (j k : Nat) :
    a - UInt16.ofNat j - UInt16.ofNat k = a - UInt16.ofNat (j + k) := by
  rw [UInt16.ofNat_add, UInt16.sub_eq_add_neg, UInt16.sub_eq_add_neg, UInt16.sub_eq_add_neg, UInt16.neg_add,
    UInt16.sub_eq_add_neg, UInt16.add_assoc]

theorem sub_ofNat_add (a : Word) (j k : Nat) :
    a - UInt16.ofNat (j + k) + UInt16.ofNat k = a - UInt16.ofNat j := by
  rw [← sub_ofNat_sub, UInt16.sub_add_cancel]

/-- The two bytes below an address are beyond all but two of the offsets from it. -/
theorem add_ofNat_ne_sub_two (a : Word) {k : Nat} (h : k < 65534) : a + UInt16.ofNat k ≠ a - 2 := by
  intro he
  have hn := congrArg UInt16.toNat he
  have ha := a.toNat_lt
  simp [UInt16.toNat_add, UInt16.toNat_sub] at hn
  omega

theorem add_ofNat_ne_sub_one (a : Word) {k : Nat} (h : k < 65534) : a + UInt16.ofNat k ≠ a - 2 + 1 := by
  intro he
  have hn := congrArg UInt16.toNat he
  have ha := a.toNat_lt
  simp [UInt16.toNat_add, UInt16.toNat_sub] at hn
  omega

end Word

namespace StackAccess

/-! The accesses to a unit, with the stack pointer beside it. -/

variable {μ : Type}

/-- The words stand one after the other from the address on. -/
def Holds (look : μ → Word → Byte) (m : μ) (sp : Word) : List Word → Prop
  | [] => True
  | v :: vs => look m sp = v.low ∧ look m (sp + 1) = v.high ∧ Holds look m (sp + 2) vs

theorem Holds.frame {look : μ → Word → Byte} {m n : μ} {sp : Word} {vs : List Word} (h : Holds look m sp vs)
    (hk : ∀ k < 2 * vs.length, look n (sp + UInt16.ofNat k) = look m (sp + UInt16.ofNat k)) :
    Holds look n sp vs := by
  induction vs generalizing sp with
  | nil => trivial
  | cons v vs ih =>
    obtain ⟨hl, hh, ht⟩ := h
    refine ⟨?_, ?_, ih ht fun k hk' => ?_⟩
    · have h0 := hk 0 (by simp)
      rw [← hl]
      simpa using h0
    · rw [← hh]
      exact hk 1 (by simp; omega)
    · rw [Word.add_two_add_ofNat]
      exact hk (k + 2) (by simp; omega)

/-- A stack of the words `vs` has grown downward from the address `sp` in the unit `m`, and by never more than `d`
words. -/
structure Grown (look : μ → Word → Byte) (m : μ) (sp : Word) (d : Nat) (vs : List Word) (s : Word × μ) : Prop where
  pointer : s.1 = sp - UInt16.ofNat (2 * vs.length)
  holds : Holds look s.2 s.1 vs
  kept : ∀ a, (∀ k, 1 ≤ k → k ≤ 2 * d → a ≠ sp - UInt16.ofNat k) → look s.2 a = look m a

theorem Grown.empty (look : μ → Word → Byte) (m : μ) (sp : Word) (d : Nat) : Grown look m sp d [] (sp, m) where
  pointer := (UInt16.sub_zero sp).symm
  holds := trivial
  kept _ _ := rfl

variable [Bus μ]

def apply (s : Word × μ) : StackAccess → Word × μ
  | .push v => Bus.push s.2 s.1 v
  | .pop => (Bus.pop s.2 s.1).2

def run (m : μ) (sp : Word) (as : List StackAccess) : Word × μ := as.foldl apply (sp, m)

namespace Grown

variable {look : μ → Word → Byte} {m : μ} {sp : Word} {d : Nat} {vs us : List Word} {v : Word} {s : Word × μ}

theorem push (store : Bus.Stores look) (h : Grown look m sp d vs s) (hd : vs.length + 1 ≤ d) (hw : d ≤ 32768)
    (v : Word) : Grown look m sp d (v :: vs) (Bus.push s.2 s.1 v) := by
  have hp : s.1 - 2 = sp - UInt16.ofNat (2 * vs.length + 2) := by
    rw [h.pointer]
    exact Word.sub_ofNat_sub sp _ 2
  have hp1 : s.1 - 2 + 1 = sp - UInt16.ofNat (2 * vs.length + 1) := by
    rw [hp]
    exact Word.sub_ofNat_add sp _ 1
  refine ⟨hp, ⟨?_, ?_, ?_⟩, fun a ha => ?_⟩
  · have hn : s.1 - 2 + 1 ≠ s.1 - 2 := Word.add_one_ne _
    simp [Bus.push, store.look_writeWord, hn]
  · simp [Bus.push, store.look_writeWord]
  · have hs : s.1 - 2 + 2 = s.1 := UInt16.sub_add_cancel _ 2
    rw [Bus.push, hs]
    refine h.holds.frame fun k hk => ?_
    have h1 := (Word.add_ofNat_ne_sub_two s.1 (k := k) (by omega)).symm
    have h2 := (Word.add_ofNat_ne_sub_one s.1 (k := k) (by omega)).symm
    simp [store.look_writeWord, h1, h2]
  · have h1 : s.1 - 2 + 1 ≠ a := fun he => ha (2 * vs.length + 1) (by omega) (by omega) (he.symm.trans hp1)
    have h2 : s.1 - 2 ≠ a := fun he => ha (2 * vs.length + 2) (by omega) (by omega) (he.symm.trans hp)
    simp only [Bus.push, store.look_writeWord, h1, h2, if_false]
    exact h.kept a ha

theorem pop (store : Bus.Stores look) (h : Grown look m sp d (v :: vs) s) :
    (Bus.pop s.2 s.1).1 = v ∧ Grown look m sp d vs (Bus.pop s.2 s.1).2 := by
  obtain ⟨hl, hh, ht⟩ := h.holds
  have hr (a : Word) : look (Bus.pop s.2 s.1).2.2 a = look s.2 a := store.look_readWord _ _ a
  refine ⟨?_, ?_, ht.frame fun k _ => hr _, fun a ha => ?_⟩
  · rw [← Word.ofBytes_high_low v, ← hl, ← hh]
    exact store.fst_readWord _ _
  · change s.1 + 2 = _
    rw [h.pointer]
    exact Word.sub_ofNat_add sp _ 2
  · rw [hr, h.kept a ha]

theorem foldl (store : Bus.Stores look) (hw : d ≤ 32768) {as : List StackAccess} (h : Grown look m sp d vs s)
    (hl : left? vs as = some us) (hd : depth vs.length as ≤ d) : Grown look m sp d us (as.foldl apply s) := by
  induction as generalizing vs s with
  | nil =>
    cases hl
    exact h
  | cons a as ih =>
    cases a with
    | push v =>
      have hn := le_depth (vs.length + 1) as
      simp only [depth] at hd
      exact ih (h.push store (by omega) hw v) hl (by simp only [List.length_cons]; omega)
    | pop =>
      cases vs with
      | nil => cases hl
      | cons v vs =>
        simp only [depth] at hd
        exact ih (h.pop store).2 hl (by simp at hd; omega)

end Grown

theorem popped {look : μ → Word → Byte} (store : Bus.Stores look) (m : μ) (sp : Word)
    {before after : List StackAccess} (h : Bracketed (before ++ .pop :: after))
    (hd : depth 0 (before ++ .pop :: after) ≤ 32768) :
    ∃ earlier v inner, before = earlier ++ .push v :: inner ∧ Bracketed inner ∧
      (Bus.pop (run m sp before).2 (run m sp before).1).1 = v := by
  rw [Bracketed, left?_append, Option.bind_eq_some_iff] at h
  obtain ⟨us, hb, ha⟩ := h
  cases us with
  | nil => cases ha
  | cons v vs =>
    obtain ⟨earlier, inner, he, hi, -⟩ := exists_push hb
    have hg := (Grown.empty look m sp 32768).foldl store (Nat.le_refl _) hb
      (Nat.le_trans (depth_append_left 0 before _) hd)
    exact ⟨earlier, v, inner, he, hi, (hg.pop store).1⟩

end StackAccess

theorem Opcode.form_ne_pop_sp (op : Opcode) : op.form ≠ .inherent (.pop .sp) := by
  have h : ∀ code : Byte, (⟨code⟩ : Opcode).form ≠ .inherent (.pop .sp) := Byte.forall_of_ofNat (by decide +kernel)
  exact h op.code

namespace Processor

variable {μ : Type} [Bus μ]

/-- The word that the instruction at the program counter puts on the stack: a pair, or the address behind a call. -/
def stacked? (p : Processor μ) : Option Word :=
  match p.next.form with
  | .inherent (.push x) => some (p.regs.pair x)
  | .inherent (.restart _) => some (p.regs.pc + 1)
  | .word .call => some (p.regs.pc + 3)
  | .word (.callIf cc) => if cc.holds p.regs.flags then some (p.regs.pc + 3) else none
  | _ => none

/-- The instruction at the program counter takes its next address from the stack. -/
def returns (p : Processor μ) : Bool :=
  match p.next.form with
  | .inherent .ret | .inherent .retInterrupt => true
  | .inherent (.retIf cc) => cc.holds p.regs.flags
  | _ => false

def fetched (p : Processor μ) : Instruction :=
  (p.next.form.fetch (p.readByte p.regs.pc).2.bus (p.regs.pc + 1)).1

def poised (p : Processor μ) : Processor μ :=
  { p with
    bus := (p.next.form.fetch (p.readByte p.regs.pc).2.bus (p.regs.pc + 1)).2
    regs := p.entering p.next.form }

theorem step_of_form {p : Processor μ} {f : Form} (hf : p.next.form = f) (h : f ≠ .hole) :
    ∃ c, p.step = (.ok c, p.fetched.perform p.poised) := by
  have hh : p.next.isHole = false := by simpa [Opcode.isHole, hf] using h
  rw [step_of_next hh]
  exact ⟨_, rfl⟩

theorem fetched_of_inherent {p : Processor μ} {i : Inherent} (hf : p.next.form = .inherent i) :
    p.fetched = .inherent i ∧ p.poised.regs.pc = p.regs.pc + 1 := by
  rw [fetched, poised, hf]
  exact ⟨rfl, UInt16.add_zero _⟩

theorem fetched_of_word {p : Processor μ} {i : WordForm} (hf : p.next.form = .word i) :
    (∃ n, p.fetched = .word i n) ∧ p.poised.regs.pc = p.regs.pc + 3 := by
  rw [fetched, poised, hf]
  exact ⟨⟨_, rfl⟩, UInt16.add_assoc _ 1 2⟩

theorem step_stacked {p : Processor μ} {v : Word} (h : p.stacked? = some v) :
    ∃ c q m, p.step = (.ok c, q) ∧ q.regs.sp = p.regs.sp - 2 ∧ q.bus = Bus.writeWord m (p.regs.sp - 2) v := by
  unfold stacked? at h
  split at h
  next x hf =>
    cases h
    obtain ⟨c, hs⟩ := step_of_form hf (by simp)
    have hv : p.poised.regs.pair x = p.regs.pair x := by cases x <;> rfl
    rw [(fetched_of_inherent hf).1] at hs
    rw [← hv]
    exact ⟨c, _, p.poised.bus, hs, rfl, rfl⟩
  next n hf =>
    cases h
    obtain ⟨c, hs⟩ := step_of_form hf (by simp)
    obtain ⟨hi, hv⟩ := fetched_of_inherent hf
    rw [hi] at hs
    rw [← hv]
    exact ⟨c, _, p.poised.bus, hs, rfl, rfl⟩
  next hf =>
    cases h
    obtain ⟨c, hs⟩ := step_of_form hf (by simp)
    obtain ⟨⟨n, hn⟩, hv⟩ := fetched_of_word hf
    rw [hn] at hs
    rw [← hv]
    exact ⟨c, _, p.poised.bus, hs, rfl, rfl⟩
  next cc hf =>
    split at h
    next hc =>
      cases h
      obtain ⟨c, hs⟩ := step_of_form hf (by simp)
      obtain ⟨⟨n, hn⟩, hv⟩ := fetched_of_word hf
      have hp : (Instruction.word (.callIf cc) n).perform p.poised = p.poised.call n := if_pos hc
      rw [hn, hp] at hs
      rw [← hv]
      exact ⟨c, _, p.poised.bus, hs, rfl, rfl⟩
    next => cases h
  next => cases h

variable {look : μ → Word → Byte}

theorem look_poised (store : Bus.Stores look) (p : Processor μ) (a : Word) : look p.poised.bus a = look p.bus a :=
  (store.look_fetch _ _ _ a).trans (store.read p.bus p.regs.pc a)

def top (look : μ → Word → Byte) (p : Processor μ) : Word :=
  .ofBytes (look p.bus (p.regs.sp + 1)) (look p.bus p.regs.sp)

theorem fst_pop (store : Bus.Stores look) (p : Processor μ) : p.poised.pop.1 = top look p := by
  have h : p.poised.pop.1 = (Bus.readWord p.poised.bus p.regs.sp).1 := rfl
  rw [h, store.fst_readWord, look_poised store, look_poised store]
  rfl

theorem step_pop (store : Bus.Stores look) {p : Processor μ} {x : Pair} (hf : p.next.form = .inherent (.pop x)) :
    ∃ c q, p.step = (.ok c, q) ∧ q.regs.sp = p.regs.sp + 2 ∧
      q.regs.pair x = if x = .af then top look p &&& 0xFFF0 else top look p := by
  obtain ⟨c, hs⟩ := step_of_form hf (by simp)
  rw [(fetched_of_inherent hf).1] at hs
  have hx : Pair.sp ≠ x := fun he => p.next.form_ne_pop_sp (he ▸ hf)
  refine ⟨c, _, hs, Registers.pair_setPair_of_ne p.poised.pop.2.regs _ hx, ?_⟩
  rw [← fst_pop store]
  exact Registers.pair_setPair_self p.poised.pop.2.regs x _

theorem step_returns (store : Bus.Stores look) {p : Processor μ} (h : p.returns = true) :
    ∃ c q, p.step = (.ok c, q) ∧ q.regs.sp = p.regs.sp + 2 ∧ q.regs.pc = top look p := by
  rw [← fst_pop store]
  unfold returns at h
  split at h
  next hf =>
    obtain ⟨c, hs⟩ := step_of_form hf (by simp)
    rw [(fetched_of_inherent hf).1] at hs
    exact ⟨c, _, hs, rfl, rfl⟩
  next hf =>
    obtain ⟨c, hs⟩ := step_of_form hf (by simp)
    rw [(fetched_of_inherent hf).1] at hs
    exact ⟨c, _, hs, rfl, rfl⟩
  next cc hf =>
    obtain ⟨c, hs⟩ := step_of_form hf (by simp)
    have hp : (Instruction.inherent (.retIf cc)).perform p.poised = p.poised.ret := if_pos h
    rw [(fetched_of_inherent hf).1, hp] at hs
    exact ⟨c, _, hs, rfl, rfl⟩
  next => cases h

end Processor

open StackAccess

/-- Of brackets that are nowhere deeper than the address space has words, every pop answers the word of its push, the
stack pointer comes back, and nothing changes but two bytes for each word of the depth, below the start. So an
instruction that takes a word from the stack brings back what another put there, if it finds the stack pointer and the
two bytes as that one left them: a popped pair is the pushed word, short of the lower nibble of F, and a return goes
behind the call. -/
theorem Bus.Stores.stack_discipline {μ : Type} [Bus μ] {look : μ → Word → Byte} (store : Bus.Stores look) :
    (∀ (m : μ) (sp : Word) (as : List StackAccess), Bracketed as → depth 0 as ≤ 32768 →
      (run m sp as).1 = sp ∧
      (∀ a, (∀ k, 1 ≤ k → k ≤ 2 * depth 0 as → a ≠ sp - UInt16.ofNat k) → look (run m sp as).2 a = look m a) ∧
      ∀ before after, as = before ++ .pop :: after →
        ∃ earlier v inner, before = earlier ++ .push v :: inner ∧ Bracketed inner ∧
          (Bus.pop (run m sp before).2 (run m sp before).1).1 = v) ∧
    ∀ (p : Processor μ) (v : Word), p.stacked? = some v → ∃ c p', p.step = (.ok c, p') ∧
      ∀ q : Processor μ, q.regs.sp = p'.regs.sp → look q.bus p'.regs.sp = look p'.bus p'.regs.sp →
        look q.bus (p'.regs.sp + 1) = look p'.bus (p'.regs.sp + 1) →
        (∀ x, q.next.form = .inherent (.pop x) → ∃ d q', q.step = (.ok d, q') ∧ q'.regs.sp = p.regs.sp ∧
          q'.regs.pair x = if x = .af then v &&& 0xFFF0 else v) ∧
        (q.returns = true → ∃ d q', q.step = (.ok d, q') ∧ q'.regs.sp = p.regs.sp ∧ q'.regs.pc = v) := by
  refine ⟨fun m sp as h hd => ?_, fun p v h => ?_⟩
  · have hg := (Grown.empty look m sp (depth 0 as)).foldl store hd h (Nat.le_refl _)
    refine ⟨hg.pointer.trans (UInt16.sub_zero sp), hg.kept, ?_⟩
    rintro before after rfl
    exact popped store m sp h hd
  · obtain ⟨c, p', m, hs, hp, hb⟩ := Processor.step_stacked h
    refine ⟨c, p', hs, fun q hq hl hh => ?_⟩
    have ht : q.top look = v := by
      have hn : p.regs.sp - 2 + 1 ≠ p.regs.sp - 2 := Word.add_one_ne _
      rw [Processor.top, hq, hl, hh, hb, hp, store.look_writeWord, store.look_writeWord]
      simp [hn]
    have hr : q.regs.sp + 2 = p.regs.sp := by rw [hq, hp, UInt16.sub_add_cancel]
    refine ⟨fun x hf => ?_, fun hc => ?_⟩
    · obtain ⟨d, q', hs', hp', hx⟩ := Processor.step_pop store hf
      exact ⟨d, q', hs', hp'.trans hr, by rw [hx, ht]⟩
    · obtain ⟨d, q', hs', hp', hx⟩ := Processor.step_returns store hc
      exact ⟨d, q', hs', hp'.trans hr, hx.trans ht⟩

/-- The stack goes through address zero, for a list of accesses and for a call and its return. -/
theorem Ram.stack_discipline_through_zero :
    let as : List StackAccess := [.push 0x1234, .push 0xABCD, .pop, .pop]
    let p : Processor Ram :=
      { bus := (((Ram.empty.set 0x0100 0xCD).set 0x0101 0x80).set 0x0102 0x00).set 0x0080 0xC9
        regs := { Registers.powerUp with sp := 0x0001 } }
    Bus.Stores Ram.get ∧ Bracketed as ∧ depth 0 as ≤ 32768 ∧ (run Ram.empty 0x0001 as).1 = 0x0001 ∧
      p.stacked? = some 0x0103 ∧ p.step.2.regs.sp = 0xFFFF ∧ p.step.2.returns = true ∧
      p.step.2.step.2.regs.sp = 0x0001 ∧ p.step.2.step.2.regs.pc = 0x0103 := by
  intro as p
  have ha : Bracketed as := by decide
  have hd : depth 0 as ≤ 32768 := by decide
  have hv : p.stacked? = some 0x0103 := by decide
  have hr : p.step.2.returns = true := by decide
  obtain ⟨hl, hc⟩ := Bus.Stores.stack_discipline Ram.stores_get
  obtain ⟨c, p', hs, hq⟩ := hc p 0x0103 hv
  have hp : p.step.2 = p' := congrArg Prod.snd hs
  obtain ⟨d, q', hs', hsp, hpc⟩ := (hq p' rfl rfl rfl).2 (hp ▸ hr)
  have hq' : p.step.2.step.2 = q' := by rw [hp, hs']
  exact ⟨Ram.stores_get, ha, hd, (hl Ram.empty 0x0001 as ha hd).1, hv, by decide, hr, hq' ▸ hsp, hq' ▸ hpc⟩

end Sm83
