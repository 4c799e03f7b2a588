import Sm83.Proofs.Fields

/-!
The map and the fields mean the same. The functions that instructions are made of are those told on numbers, each by a
lemma of its own; the map, row by row, names what the fields name; and so over flat memory a step by fields and a step
by the map are the same on every state.
-/

set_option autoImplicit false

namespace Sm83

namespace Fields

def pairs : Vector Pair 4 := #v[.bc, .de, .hl, .sp]

def stackPairs : Vector Pair 4 := #v[.bc, .de, .hl, .af]

def conditions : Vector Condition 4 := #v[.nz, .z, .nc, .c]

def pointers : Vector Pointer 4 := #v[.bc, .de, .hlUp, .hlDown]

def operations : Vector AluOp 8 := #v[.add, .adc, .sub, .sbc, .and, .xor, .or, .cp]

/-! Words by their halves, and the flags. -/

theorem upper_eq (w : Word) : upper w = w.high := by
  apply UInt8.toNat_inj.1
  simp [upper, Word.high]

theorem lower_eq (w : Word) : lower w = w.low := by
  apply UInt8.toNat_inj.1
  simp [lower, Word.low]

theorem join_eq (h l : Byte) : join h l = .ofBytes h l := by
  apply UInt16.toNat_inj.1
  have hh := h.toNat_lt
  have hl := l.toNat_lt
  rw [Word.toNat_ofBytes, join, UInt16.toNat_ofNat', Nat.mod_eq_of_lt (by omega)]

theorem flags_eq (s : Processor Ram) : flags s = s.regs.flags := by
  have h (i : Nat) : s.regs.af.low.bit i = decide (s.regs.af.toNat % 256 / 2 ^ i % 2 = 1) := by
    rw [Byte.bit, Nat.testBit_eq_decide_div_mod_eq]
    simp [Word.low]
  simp only [flags, Registers.flags, Flags.ofByte, Registers.get, h, Flags.mk.injEq, decide_eq_decide]
  omega

theorem pack_eq (f : Flags) : pack f = f.toByte &&& 0xF0 := by
  obtain ⟨z, n, h, c⟩ := f
  cases z <;> cases n <;> cases h <;> cases c <;> decide

theorem setFlags_eq (s : Processor Ram) (f : Flags) : s.setFlags f = putFlags s f := by
  rw [putFlags, pack_eq, upper_eq, join_eq]
  rfl

/-! Operations on bytes and words. -/

theorem toNat_byte_ofInt (n : Int) : ((UInt8.ofInt n).toNat : Int) = n % 256 := by
  have h : (UInt8.ofInt n).toNat = (n % 256).toNat % 256 := rfl
  omega

theorem toNat_word_ofInt (n : Int) : ((UInt16.ofInt n).toNat : Int) = n % 65536 := by
  have h : (UInt16.ofInt n).toNat = (n % 65536).toNat % 65536 := rfl
  omega

theorem beq_zero (v : Byte) : (v == 0) = decide (v.toNat = 0) := by
  rw [Bool.eq_iff_iff]
  simp [← UInt8.toNat_inj]

theorem sum_eq (a b : Byte) (c : Bool) : sum a b c.toNat = Arithmetic.addCarry a b c := by
  have hn : (a + b + c.toUInt8).toNat = (a.toNat + b.toNat + c.toNat) % 256 := by
    simp [Arithmetic.toNat_toUInt8]
  have hr : UInt8.ofNat (a.toNat + b.toNat + c.toNat) = a + b + c.toUInt8 := UInt8.toNat_inj.1 hn.symm
  simp only [sum, Arithmetic.addCarry, hr, beq_zero, hn, Prod.mk.injEq, Flags.mk.injEq, decide_eq_decide, true_and]
  omega

theorem difference_eq (a b : Byte) (c : Bool) : difference a b c.toNat = Arithmetic.subBorrow a b c := by
  have ha := a.toNat_lt
  have hb := b.toNat_lt
  have hc := c.toNat_lt
  have hn : ((a - b - c.toUInt8).toNat : Int) = (a.toNat - b.toNat - c.toNat : Int) % 256 := by
    simp only [UInt8.toNat_sub, Arithmetic.toNat_toUInt8]
    omega
  have hr : UInt8.ofInt (a.toNat - b.toNat - c.toNat) = a - b - c.toUInt8 :=
    UInt8.toNat_inj.1 (Int.ofNat.inj ((toNat_byte_ofInt _).trans hn.symm))
  simp only [difference, Arithmetic.subBorrow, hr, beq_zero, Prod.mk.injEq, Flags.mk.injEq, decide_eq_decide, true_and]
  omega

theorem logic_eq (n : Byte) (h : Bool) : logic n h = (n, { zero := n == 0, halfCarry := h }) := by
  rw [logic, beq_zero]

theorem alu_eq (y : Fin 8) (a b : Byte) (f : Flags) : alu y a b f = (operations.get y).apply a b f := by
  match y with
  | 0 => exact sum_eq a b false
  | 1 => exact sum_eq a b f.carry
  | 2 => exact difference_eq a b false
  | 3 => exact difference_eq a b f.carry
  | 4 => exact logic_eq _ true
  | 5 => exact logic_eq _ false
  | 6 => exact logic_eq _ false
  | 7 => exact congrArg (fun r => (a, r.2)) (difference_eq a b false)

theorem increment_eq : increment = Arithmetic.increment := by
  funext v f
  have hv := v.toNat_lt
  have hn : (v + 1).toNat = (v.toNat + 1) % 256 := rfl
  have hr : UInt8.ofNat (v.toNat + 1) = v + 1 := UInt8.toNat_inj.1 hn.symm
  simp only [increment, Arithmetic.increment, hr, beq_zero, hn, Prod.mk.injEq, Flags.mk.injEq, decide_eq_decide,
    true_and, and_true]
  omega

theorem decrement_eq : decrement = Arithmetic.decrement := by
  funext v f
  have hv := v.toNat_lt
  have hn : ((v - 1).toNat : Int) = (v.toNat - 1 : Int) % 256 := by
    rw [UInt8.toNat_sub, UInt8.toNat_one]
    omega
  have hr : UInt8.ofInt (v.toNat - 1) = v - 1 :=
    UInt8.toNat_inj.1 (Int.ofNat.inj ((toNat_byte_ofInt _).trans hn.symm))
  simp only [decrement, Arithmetic.decrement, hr, beq_zero, Prod.mk.injEq, Flags.mk.injEq, decide_eq_decide,
    true_and, and_true]
  omega

theorem complement_eq : complement = Arithmetic.complement := by
  funext a f
  have hr : UInt8.ofNat (255 - a.toNat) = ~~~a := by
    apply UInt8.toNat_inj.1
    have ha := a.toNat_lt
    simp
    omega
  rw [complement, Arithmetic.complement, hr]

theorem adjusted_eq (a : Byte) (n low high : Bool) :
    let k : Byte := (if low then 0x06 else 0) + (if high then 0x60 else 0)
    let m : Nat := 6 * low.toNat + 96 * high.toNat
    ((if n then a - k else a + k : Byte).toNat : Int) = (if n then (a.toNat - m : Int) else a.toNat + m) % 256 := by
  have ha := a.toNat_lt
  cases n <;> cases low <;> cases high <;> simp [UInt8.toNat_sub] <;> omega

theorem adjust_eq : adjust = Arithmetic.decimalAdjust := by
  funext a f
  simp only [adjust, Arithmetic.decimalAdjust]
  generalize (f.halfCarry || !f.subtract && decide (9 < a.toNat % 16)) = low
  generalize (f.carry || !f.subtract && decide (0x99 < a.toNat)) = high
  have hn := adjusted_eq a f.subtract low high
  have hr := UInt8.toNat_inj.1 (Int.ofNat.inj ((toNat_byte_ofInt _).trans hn.symm))
  simp only [hr, ← hn, beq_zero, Int.natCast_eq_zero]

theorem bits_eq : ∀ (v : Byte) (y : Fin 8),
    (∀ c : Bool, ((Rotation.ofIndex y).result v c).toNat = (turn y v.toNat c.toNat).1 ∧
      (Rotation.ofIndex y).out v = decide ((turn y v.toNat c.toNat).2 = 1)) ∧
    decide (bitOf v y = 0) = !v.bit y ∧ clearBit v y = Byte.clearBit v y ∧ setBit v y = Byte.setBit v y :=
  Byte.forall_of_ofNat (by decide +kernel)

theorem rotate_eq (y : Fin 8) : rotate y = (Rotation.ofIndex y).apply := by
  funext v f
  obtain ⟨hv, ho⟩ := (bits_eq v y).1 f.carry
  simp only [rotate, Rotation.apply, beq_zero, ← hv, ho, UInt8.ofNat_toNat]

theorem rotateShort_eq (y : Fin 8) : rotateShort y = (Rotation.ofIndex y).applyShort := by
  funext v f
  have h := congrFun (congrFun (rotate_eq y) v) f
  rw [Rotation.applyShort, ← h]
  rfl

theorem testBit_eq (v : Byte) (y : Fin 8) (f : Flags) : testBit v y f = (v.test y f).2 := by
  simp only [testBit, (bits_eq v y).2.1, Byte.test]

theorem clearBit_eq (v : Byte) (y : Fin 8) : clearBit v y = Byte.clearBit v y := (bits_eq v y).2.2.1

theorem setBit_eq (v : Byte) (y : Fin 8) : setBit v y = Byte.setBit v y := (bits_eq v y).2.2.2

theorem ofInt_signed (a : Word) (n : Byte) : UInt16.ofInt (a.toNat + signed n) = a + n.signExtend := by
  have hn := n.toNat_lt
  have ha := a.toNat_lt
  have hk := toNat_word_ofInt (a.toNat + signed n)
  apply UInt16.toNat_inj.1
  rw [UInt16.toNat_add, Byte.toNat_signExtend]
  by_cases hm : n.toNat < 128
  · simp only [signed, hm, if_true] at hk ⊢
    omega
  · simp only [signed, hm, if_false] at hk ⊢
    omega

theorem addWord_eq (a b : Word) (f : Flags) : addWord a b f = Arithmetic.addWord a b f := by
  have hr : UInt16.ofNat (a.toNat + b.toNat) = a + b := by
    apply UInt16.toNat_inj.1
    simp
  simp only [addWord, Arithmetic.addWord, hr, Prod.mk.injEq, Flags.mk.injEq, decide_eq_decide, true_and]
  omega

theorem addSigned_eq (a : Word) (n : Byte) (f : Flags) : addSigned a n = Arithmetic.addOffset a n f := by
  simp only [addSigned, Arithmetic.addOffset, ofInt_signed, Prod.mk.injEq, Flags.mk.injEq, decide_eq_decide, true_and]
  omega

/-! Places, pairs and conditions by their numbers. -/

theorem get_a_eq (s : Processor Ram) : s.regs.get .a = upper s.regs.af := (upper_eq _).symm

theorem get_c_eq (s : Processor Ram) : s.regs.get .c = lower s.regs.bc := (lower_eq _).symm

theorem load_eq (s : Processor Ram) (i : Fin 8) : s.load (.ofIndex i) = (read s i, s) := by
  match i with
  | 0 | 2 | 4 | 7 => rw [read, upper_eq]; rfl
  | 1 | 3 | 5 => rw [read, lower_eq]; rfl
  | 6 => rfl

theorem store_eq (s : Processor Ram) (i : Fin 8) (v : Byte) : s.store (.ofIndex i) v = write s v i := by
  match i with
  | 0 | 2 | 4 | 7 => rw [write, lower_eq, join_eq]; rfl
  | 1 | 3 | 5 => rw [write, upper_eq, join_eq]; rfl
  | 6 => rfl

theorem takeCell_eq (s : Processor Ram) (a : Word) : s.store .a (s.bus.get a) = takeCell s a := by
  rw [takeCell, lower_eq, join_eq]
  rfl

theorem onPlace_eq (s : Processor Ram) (i : Fin 8) (f : Byte → Flags → Byte × Flags) :
    s.onPlace (.ofIndex i) f = modify s i f := by
  simp only [Processor.onPlace, load_eq, store_eq, setFlags_eq, ← flags_eq]
  rfl

/-- The accumulator and the flags do not share a bit. -/
theorem onAccumulator_eq (s : Processor Ram) {f g : Byte → Flags → Byte × Flags} (h : g = f) :
    s.onAccumulator f = accumulate s g := by
  subst h
  simp only [Processor.onAccumulator, get_a_eq, ← flags_eq, accumulate, pack_eq, join_eq]
  simp [Registers.setFlags, Registers.set]

theorem pair_eq (s : Processor Ram) (i : Fin 4) : s.regs.pair (pairs.get i) = readPair s i := by
  match i with
  | 0 | 1 | 2 | 3 => rfl

theorem setPair_eq (s : Processor Ram) (i : Fin 4) (v : Word) : s.setPair (pairs.get i) v = writePair s v i := by
  match i with
  | 0 | 1 | 2 | 3 => rfl

theorem stackPair_eq (s : Processor Ram) (i : Fin 4) : s.regs.pair (stackPairs.get i) = readStacked s i := by
  match i with
  | 0 | 1 | 2 | 3 => rfl

theorem masked_eq (v : Word) : v &&& 0xFFF0 = UInt16.ofNat (v.toNat / 16 * 16) := by
  have hv := v.toNat_lt
  have hd : (v.toNat &&& 65520) / 2 ^ 4 = v.toNat / 2 ^ 4 := by
    rw [Nat.and_div_two_pow]
    exact (Nat.and_two_pow_sub_one_eq_mod (v.toNat / 2 ^ 4) 12).trans (Nat.mod_eq_of_lt (by omega))
  have hm : (v.toNat &&& 65520) % 2 ^ 4 = 0 := by
    rw [Nat.and_mod_two_pow]
    exact Nat.and_zero _
  apply UInt16.toNat_inj.1
  rw [UInt16.toNat_and, UInt16.toNat_ofNat', Nat.mod_eq_of_lt (by omega)]
  change v.toNat &&& 65520 = v.toNat / 16 * 16
  omega

theorem setStackPair_eq (s : Processor Ram) (i : Fin 4) (v : Word) :
    s.setPair (stackPairs.get i) v = writeStacked s v i := by
  match i with
  | 0 | 1 | 2 => rfl
  | 3 =>
    rw [writeStacked, ← masked_eq]
    rfl

theorem met_eq (s : Processor Ram) (y : Fin 8) : (conditions.get (c y)).met s = holds s y := by
  unfold holds
  rw [flags_eq]
  match c y with
  | 0 | 1 | 2 | 3 => rfl

/-! What the instructions are made of. -/

theorem readWord_eq (m : Ram) (a : Word) : Bus.readWord m a = (wordAt m a, m) := by
  rw [wordAt, join_eq]
  rfl

theorem writeWord_eq (m : Ram) (a v : Word) : Bus.writeWord m a v = putWord m a v := by
  rw [putWord, upper_eq, lower_eq]
  rfl

theorem push_eq (s : Processor Ram) (v : Word) : s.push v = push s v := by
  rw [push, ← writeWord_eq]
  rfl

theorem pop_eq (s : Processor Ram) : s.pop = (wordAt s.bus s.regs.sp, drop s) := by
  simp only [Processor.pop, Bus.pop, readWord_eq]
  rfl

theorem ret_eq (s : Processor Ram) : s.ret = ret s := by
  rw [Processor.ret, pop_eq]
  rfl

theorem call_eq (s : Processor Ram) (a : Word) : s.call a = call s a := by
  rw [Processor.call, push_eq]
  rfl

theorem jumpBy_eq (s : Processor Ram) (n : Byte) : s.jumpBy n = goBy s n := by
  rw [goBy, ofInt_signed]
  rfl

theorem writeByte_eq (s : Processor Ram) (a : Word) : s.writeByte a (s.regs.get .a) = putCell s a := by
  rw [get_a_eq]
  rfl

theorem readByte_eq (s : Processor Ram) (a : Word) : s.readByte a = (s.bus.get a, s) := rfl

theorem follow_eq (s : Processor Ram) (i : Fin 4) : (pointers.get i).follow s = point s i := by
  match i with
  | 0 =>
    change (s.regs.bc, { s with regs := { s.regs with bc := s.regs.bc + 0 } }) = (s.regs.bc, s)
    rw [UInt16.add_zero]
  | 1 =>
    change (s.regs.de, { s with regs := { s.regs with de := s.regs.de + 0 } }) = (s.regs.de, s)
    rw [UInt16.add_zero]
  | 2 => rfl
  | 3 =>
    have h : s.regs.hl - 1 = s.regs.hl + -1 := UInt16.sub_eq_add_neg _ _
    rw [point, h]
    rfl

theorem perform_extended (s : Processor Ram) (n : Byte) : (Bitwise.ofCode n).perform s = extended n s := by
  have hn := n.toNat_lt
  have hx : n.toNat / 64 = 0 ∨ n.toNat / 64 = 1 ∨ n.toNat / 64 = 2 ∨ n.toNat / 64 = 3 := by omega
  rcases hx with hx | hx | hx | hx
  · have hf : (ofCode n).x = 0 := Fin.ext hx
    simp only [Bitwise.ofCode, hx, extended, hf, Bitwise.perform, onPlace_eq, rotate_eq]
    rfl
  · have hf : (ofCode n).x = 1 := Fin.ext hx
    simp only [Bitwise.ofCode, hx, extended, hf, Bitwise.perform, load_eq, setFlags_eq, testBit_eq, flags_eq]
    rfl
  · have hf : (ofCode n).x = 2 := Fin.ext hx
    simp only [Bitwise.ofCode, hx, extended, hf, Bitwise.perform, load_eq, store_eq, clearBit_eq]
    rfl
  · have hf : (ofCode n).x = 3 := Fin.ext hx
    simp only [Bitwise.ofCode, hx, extended, hf, Bitwise.perform, load_eq, store_eq, setBit_eq]
    rfl

/-! The map row by row, in terms of the fields. -/

def firstForm (y : Fin 8) : Fin 8 → Form
  | 0 => match y with
    | 0 => .inherent .nop
    | 1 => .word .storeStack
    | 2 => .byte .stop
    | 3 => .byte .jump
    | _ => .byte (.jumpIf (conditions.get (c y)))
  | 1 =>
    if y.val % 2 = 0 then .word (.set (pairs.get (p y)))
    else .inherent (.addToHl (pairs.get (p y)))
  | 2 => .inherent (if y.val % 2 = 0 then .storeAt (pointers.get (p y)) else .loadAt (pointers.get (p y)))
  | 3 =>
    .inherent (if y.val % 2 = 0 then .incrementPair (pairs.get (p y))
      else .decrementPair (pairs.get (p y)))
  | 4 => .inherent (.increment (.ofIndex y))
  | 5 => .inherent (.decrement (.ofIndex y))
  | 6 => .byte (.set (.ofIndex y))
  | 7 => .inherent (match y with
    | 0 => .rlca
    | 1 => .rrca
    | 2 => .rla
    | 3 => .rra
    | 4 => .decimalAdjust
    | 5 => .complement
    | 6 => .setCarry
    | 7 => .flipCarry)

def fourthForm (y : Fin 8) : Fin 8 → Form
  | 0 => match y with
    | 4 => .byte .storeDevice
    | 5 => .byte .addToStack
    | 6 => .byte .loadDevice
    | 7 => .byte .hlFromStack
    | _ => .inherent (.retIf (conditions.get (c y)))
  | 1 => match y with
    | 1 => .inherent .ret
    | 3 => .inherent .retInterrupt
    | 5 => .inherent .jumpHl
    | 7 => .inherent .stackFromHl
    | _ => .inherent (.pop (stackPairs.get (p y)))
  | 2 => match y with
    | 4 => .inherent .storeDevice
    | 5 => .word .store
    | 6 => .inherent .loadDevice
    | 7 => .word .load
    | _ => .word (.jumpIf (conditions.get (c y)))
  | 3 => match y with
    | 0 => .word .jump
    | 1 => .byte .extended
    | 6 => .inherent .disableInterrupts
    | 7 => .inherent .enableInterrupts
    | _ => .hole
  | 4 => if y.val < 4 then .word (.callIf (conditions.get (c y))) else .hole
  | 5 =>
    if y.val % 2 = 0 then .inherent (.push (stackPairs.get (p y)))
    else if y.val = 1 then .word .call
    else .hole
  | 6 => .byte (.alu (operations.get y))
  | 7 => .inherent (.restart y)

def form (f : Fields) : Form :=
  match f.x with
  | 0 => firstForm f.y f.z
  | 1 => .inherent (if f.y.val = 6 ∧ f.z.val = 6 then .halt else .copy (.ofIndex f.y) (.ofIndex f.z))
  | 2 => .inherent (.alu (operations.get f.y) (.ofIndex f.z))
  | 3 => fourthForm f.y f.z

end Fields

def Form.outcome : Form → Outcome
  | .hole | .inherent .halt => .unimplemented
  | .byte .stop => .stop
  | _ => .proceed

def Form.Means : Form → Fields.Action → Prop
  | .inherent i, .plain f => ∀ s, i.perform s = f s
  | .byte i, .byte f => ∀ s n, i.perform s n = f n s
  | .word i, .word f => ∀ s n, i.perform s n = f n s
  | _, _ => False

namespace Fields

theorem map_eq : ∀ code : Byte,
    (Opcode.mk code).form = form (ofCode code) ∧ ((Opcode.mk code).isHole = true ↔ code ∈ holes) ∧
      ((Opcode.mk code).form ≠ .hole → (Opcode.mk code).form.outcome = outcome code) :=
  Byte.forall_of_ofNat (by decide +kernel)

theorem means_first (y z : Fin 8) : (firstForm y z).Means (first y z) := by
  match z with
  | 0 =>
    match y with
    | 0 => exact fun s => rfl
    | 1 => exact fun s n => congrArg (fun m => { s with bus := m }) (writeWord_eq s.bus n s.regs.sp)
    | 2 => exact fun s n => rfl
    | 3 => exact fun s n => jumpBy_eq s n
    | 4 | 5 | 6 | 7 =>
      intro s n
      simp only [ByteForm.perform, met_eq, jumpBy_eq]
  | 1 =>
    by_cases h : y.val % 2 = 0
    · simp only [firstForm, first, h, if_true]
      exact fun s n => setPair_eq s (p y) n
    · simp only [firstForm, first, h, if_false]
      intro s
      simp only [Inherent.perform, pair_eq, setFlags_eq, ← flags_eq, addWord_eq]
      rfl
  | 2 =>
    by_cases h : y.val % 2 = 0
    · simp only [firstForm, first, h, if_true]
      intro s
      simp only [Inherent.perform, follow_eq, writeByte_eq]
    · simp only [firstForm, first, h, if_false]
      intro s
      simp only [Inherent.perform, follow_eq, readByte_eq, takeCell_eq]
  | 3 =>
    by_cases h : y.val % 2 = 0
    · simp only [firstForm, first, h, if_true]
      intro s
      simp only [Inherent.perform, pair_eq, setPair_eq]
    · simp only [firstForm, first, h, if_false]
      intro s
      simp only [Inherent.perform, pair_eq, setPair_eq]
  | 4 =>
    intro s
    simp only [Inherent.perform, onPlace_eq, increment_eq]
  | 5 =>
    intro s
    simp only [Inherent.perform, onPlace_eq, decrement_eq]
  | 6 => exact fun s n => store_eq s y n
  | 7 =>
    match y with
    | 0 | 1 | 2 | 3 =>
      intro s
      simp only [Inherent.perform]
      exact onAccumulator_eq s (rotateShort_eq _)
    | 4 =>
      intro s
      simp only [Inherent.perform]
      exact onAccumulator_eq s adjust_eq
    | 5 =>
      intro s
      simp only [Inherent.perform]
      exact onAccumulator_eq s complement_eq
    | 6 | 7 =>
      intro s
      simp only [Inherent.perform, setFlags_eq, ← flags_eq]
      rfl

theorem means_copy (y z : Fin 8) :
    (Form.inherent (if y.val = 6 ∧ z.val = 6 then .halt else .copy (.ofIndex y) (.ofIndex z))).Means
      (second y z) := by
  intro s
  by_cases h : y.val = 6 ∧ z.val = 6
  · simp only [h, and_self, if_true]
    rfl
  · simp only [h, if_false]
    simp only [Inherent.perform, load_eq, store_eq]

theorem means_alu (y z : Fin 8) :
    (Form.inherent (.alu (operations.get y) (.ofIndex z))).Means (third y z) := by
  intro s
  simp only [Inherent.perform, load_eq]
  exact onAccumulator_eq s (funext fun a => funext fun f => alu_eq y a (read s z) f)

theorem means_fourth (y z : Fin 8) : fourthForm y z = .hole ∨ (fourthForm y z).Means (fourth y z) := by
  -- column by column of the block, the holes being in the columns 3 to 5
  match z with
  | 0 =>
    match y with
    | 0 | 1 | 2 | 3 =>
      refine .inr fun s => ?_
      simp only [Inherent.perform, met_eq, ret_eq]
    | 4 => exact .inr fun s n => writeByte_eq s (device n)
    | 5 | 7 =>
      refine .inr fun s n => ?_
      simp only [ByteForm.perform, setFlags_eq, ← flags_eq, ← addSigned_eq]
      rfl
    | 6 => exact .inr fun s n => takeCell_eq s (device n)
  | 1 =>
    match y with
    | 0 | 2 | 4 | 6 =>
      refine .inr fun s => ?_
      simp only [Inherent.perform, pop_eq, setStackPair_eq]
    | 1 => exact .inr ret_eq
    | 3 => exact .inr fun s => ret_eq (enable s true)
    | 5 | 7 => exact .inr fun s => rfl
  | 2 =>
    match y with
    | 0 | 1 | 2 | 3 =>
      refine .inr fun s n => ?_
      simp only [WordForm.perform, met_eq]
      rfl
    | 4 =>
      refine .inr fun s => ?_
      simp only [Inherent.perform, writeByte_eq, get_c_eq]
      rfl
    | 5 => exact .inr writeByte_eq
    | 6 =>
      refine .inr fun s => ?_
      simp only [Inherent.perform, readByte_eq, takeCell_eq, get_c_eq]
      rfl
    | 7 => exact .inr takeCell_eq
  | 3 =>
    match y with
    | 0 => exact .inr fun s n => rfl
    | 1 => exact .inr fun s n => perform_extended s n
    | 2 | 3 | 4 | 5 => exact .inl rfl
    | 6 | 7 => exact .inr fun s => rfl
  | 4 =>
    by_cases h : y.val < 4
    · simp only [fourthForm, fourth, h, if_true]
      refine .inr fun s n => ?_
      simp only [WordForm.perform, met_eq, call_eq]
    · simp only [fourthForm, h, if_false]
      exact .inl trivial
  | 5 =>
    match y with
    | 0 | 2 | 4 | 6 =>
      refine .inr fun s => ?_
      simp only [Inherent.perform, stackPair_eq, push_eq]
    | 1 => exact .inr call_eq
    | 3 | 5 | 7 => exact .inl rfl
  | 6 =>
    refine .inr fun s n => ?_
    simp only [ByteForm.perform]
    exact onAccumulator_eq s (funext fun a => funext fun f => alu_eq y a n f)
  | 7 => exact .inr fun s => call_eq s (8 * UInt16.ofNat y)

theorem means (f : Fields) : form f = .hole ∨ (form f).Means (action f) := by
  obtain ⟨x, y, z⟩ := f
  match x with
  | 0 => exact .inr (means_first y z)
  | 1 => exact .inr (means_copy y z)
  | 2 => exact .inr (means_alu y z)
  | 3 => exact means_fourth y z

theorem outcome_fetch (op : Opcode) (h : op.form ≠ .hole) (m : Ram) (a : Word) :
    (op.form.fetch m a).1.outcome = outcome op.code := by
  have ho : op.form.outcome = outcome op.code := (map_eq op.code).2.2 h
  rw [← ho]
  cases hf : op.form with
  | hole => exact absurd hf h
  | inherent i => cases i <;> rfl
  | byte i => cases i <;> rfl
  | word i => cases i <;> rfl

theorem run_of_means {f : Form} {act : Action} (h : f.Means act) (m : Ram) (a : Word)
    (s : Processor Ram) :
    (f.fetch m a).2 = m ∧ UInt16.ofNat f.width = act.width ∧
      (f.fetch m a).1.operand = (act.run m a s).1 ∧ (f.fetch m a).1.perform s = (act.run m a s).2 := by
  cases f with
  | hole => cases h
  | inherent i =>
    cases act with
    | plain g => exact ⟨rfl, rfl, rfl, h s⟩
    | _ => cases h
  | byte i =>
    cases act with
    | byte g => exact ⟨rfl, rfl, rfl, h s _⟩
    | _ => cases h
  | word i =>
    cases act with
    | word g =>
      have hf : (Form.word i).fetch m a = (.word i (wordAt m a), m) := by rw [Form.fetch, readWord_eq]
      rw [hf]
      exact ⟨rfl, rfl, rfl, h s _⟩
    | _ => cases h

theorem means_of_form {op : Opcode} (h : op.form ≠ .hole) : op.form.Means (action (ofCode op.code)) := by
  have hf : op.form = form (ofCode op.code) := (map_eq op.code).1
  rw [hf] at h ⊢
  exact (means _).resolve_left h

theorem execute_eq (s : Processor Ram) {op : Opcode} (h : op.form ≠ .hole) :
    s.execute op =
      let act := action (ofCode op.code)
      let r := act.run s.bus (s.regs.pc + 1) (go s (s.regs.pc + 1 + act.width))
      ({ pc := s.regs.pc, opcode := op, operand := r.1, outcome := outcome op.code }, r.2) := by
  let act := action (ofCode op.code)
  obtain ⟨hb, hw, ho, hp⟩ := run_of_means (means_of_form h) s.bus (s.regs.pc + 1)
    (go s (s.regs.pc + 1 + act.width))
  have hx : s.execute op =
      ({ pc := s.regs.pc
         opcode := op
         operand := (op.form.fetch s.bus (s.regs.pc + 1)).1.operand
         outcome := (op.form.fetch s.bus (s.regs.pc + 1)).1.outcome },
        (op.form.fetch s.bus (s.regs.pc + 1)).1.perform
          (go { s with bus := (op.form.fetch s.bus (s.regs.pc + 1)).2 }
            (s.regs.pc + 1 + UInt16.ofNat op.form.width))) := rfl
  rw [hx, hb, hw, hp, ho, outcome_fetch op h]

end Fields

/-- Over flat memory a step by the map is the step by the fields, whatever the registers, the interrupts and
the cells are: it finds the same holes, takes the same operands and leaves the same state. -/
theorem Processor.step_eq_fields (s : Processor Ram) : s.step = Fields.step s := by
  have hd : s.decode =
      (if Opcode.isHole ⟨s.bus.get s.regs.pc⟩ then .error ⟨⟨s.bus.get s.regs.pc⟩, s.regs.pc⟩
        else .ok ⟨s.bus.get s.regs.pc⟩, s) := rfl
  generalize hop : Opcode.mk (s.bus.get s.regs.pc) = op at hd
  have hcode : s.bus.get s.regs.pc = op.code := by rw [← hop]
  by_cases hh : op.isHole = true
  · have hk : op.code ∈ Fields.holes := (Fields.map_eq op.code).2.1.1 hh
    simp [step, hd, hh, Fields.step, hcode, hk]
  · have hk : op.code ∉ Fields.holes := fun hk => hh ((Fields.map_eq op.code).2.1.2 hk)
    have hf : op.form ≠ .hole := fun hf => hh (by simp [Opcode.isHole, hf])
    simp [step, hd, hh, Fields.step, hcode, hk, Fields.execute_eq s hf]

end Sm83
