import Sm83.Proofs.Bits
import Sm83.Proofs.Columns
import Sm83.Rotation

/-!
The rotations and shifts on rows of bits. An operation moves the row of a byte by one place: a bit comes in at one end
and another leaves at the other into the carry, and the operations differ in which bit comes in. With the carry between
them, the rows of many bytes move as one row, and so halve and double numbers of any length.
-/

set_option autoImplicit false

namespace Sm83

namespace Rotation

/-- A rotation turns a ring of eight bits, or of nine with the carry; a shift brings in a clear bit, or the sign. -/
def Turns (v : Byte) (c : Bool) (w : Byte) (c' : Bool) : Rotation → Prop
  | .rlc => w.bits ++ [c'] = v.bit 7 :: v.bits
  | .rrc => c' :: w.bits = v.bits ++ [v.bit 0]
  | .rl => w.bits ++ [c'] = c :: v.bits
  | .rr => c' :: w.bits = v.bits ++ [c]
  | .sla => w.bits ++ [c'] = false :: v.bits
  | .sra => c' :: w.bits = v.bits ++ [v.bit 7]
  | .swap => w.bits = v.bits.drop 4 ++ v.bits.take 4 ∧ c' = false
  | .srl => c' :: w.bits = v.bits ++ [false]

theorem turns (r : Rotation) (v : Byte) (f : Flags) :
    r.Turns v f.carry (r.apply v f).1 (r.apply v f).2.carry := by
  have hv {n : Nat} (h : 8 ≤ n) : v.bit n = false := v.bit_of_le h
  have hs (i : Nat) : Byte.bit 0x80 i = decide (7 = i) := Byte.bit_sign true i
  cases r <;>
    simp [Turns, apply, result, out, Byte.bits_eq, Byte.bit_or, Byte.bit_and, Byte.bit_shiftLeft, Byte.bit_shiftRight,
      Byte.bit_toUInt8, Byte.bit_sign, hs, hv]

end Rotation

/-! Rows of bits as numbers. -/

/-- The number that the bits are the binary digits of, the lowest first. -/
def binary (bits : List Bool) : Nat := Nat.ofDigits 2 (bits.map Bool.toNat)

theorem binary_cons (c : Bool) (bits : List Bool) : binary (c :: bits) = c.toNat + 2 * binary bits := by
  simp [binary, Nat.ofDigits_cons]

theorem binary_append (bits others : List Bool) :
    binary (bits ++ others) = binary bits + 2 ^ bits.length * binary others := by
  simp [binary, Nat.ofDigits_append]

theorem testBit_binary (bits : List Bool) (i : Nat) : (binary bits).testBit i = bits.getD i false := by
  induction bits generalizing i with
  | nil => simp [binary]
  | cons c bits ih =>
    have hc := c.toNat_lt
    rw [binary_cons]
    cases i with
    | zero =>
      rw [Nat.testBit_zero, Nat.add_mul_mod_self_left]
      cases c <;> rfl
    | succ i =>
      have hd : (c.toNat + 2 * binary bits) / 2 = binary bits := by omega
      rw [Nat.testBit_succ, hd, ih]
      rfl

theorem binary_bits (b : Byte) : binary b.bits = b.toNat := by
  refine Nat.eq_of_testBit_eq fun i => ?_
  rw [testBit_binary]
  rcases Nat.lt_or_ge i 8 with hi | hi
  · simp [Byte.bits, hi, Byte.bit]
  · have hb : b.toNat.testBit i = false := b.bit_of_le hi
    simp [Byte.bits, hi, hb]

def rows (bs : List Byte) : List Bool := bs.flatMap Byte.bits

@[simp] theorem Byte.length_bits (b : Byte) : b.bits.length = 8 := rfl

theorem rows_cons (b : Byte) (bs : List Byte) : rows (b :: bs) = b.bits ++ rows bs := List.flatMap_cons

theorem rows_append (bs cs : List Byte) : rows (bs ++ cs) = rows bs ++ rows cs := List.flatMap_append

theorem rows_reverse_cons (b : Byte) (bs : List Byte) : rows (b :: bs).reverse = rows bs.reverse ++ b.bits := by
  rw [List.reverse_cons, rows_append]
  simp [rows]

theorem length_rows (bs : List Byte) : (rows bs).length = 8 * bs.length := by
  induction bs with
  | nil => rfl
  | cons b bs ih =>
    rw [rows_cons, List.length_append, ih, b.length_bits, List.length_cons]
    omega

theorem rows_inj {bs cs : List Byte} (h : rows bs = rows cs) : bs = cs := by
  induction bs generalizing cs with
  | nil =>
    cases cs with
    | nil => rfl
    | cons c cs => cases h
  | cons b bs ih =>
    cases cs with
    | nil => cases h
    | cons c cs =>
      rw [rows_cons, rows_cons] at h
      obtain ⟨hb, hr⟩ := List.append_inj h rfl
      rw [Byte.bits_inj hb, ih hr]

theorem binary_rows (bs : List Byte) : binary (rows bs) = valueIn 256 UInt8.toNat bs := by
  induction bs with
  | nil => rfl
  | cons b bs ih =>
    rw [rows_cons, binary_append, binary_bits, ih, valueIn_cons, b.length_bits]
    norm_num

def topBit (bs : List Byte) : Bool := (valueIn 256 UInt8.toNat bs).testBit (8 * bs.length - 1)

theorem topBit_eq (bs : List Byte) : topBit bs = (rows bs).getD (8 * bs.length - 1) false := by
  rw [topBit, ← binary_rows, testBit_binary]

theorem topBit_reverse_cons (b : Byte) (bs : List Byte) : topBit (b :: bs).reverse = b.bit 7 := by
  have hi : 8 * (bs.length + 1) - 1 = 8 * bs.length + 7 := by omega
  rw [topBit_eq, rows_reverse_cons, List.length_reverse, List.length_cons, hi]
  simp [length_rows, Byte.bits_eq]

def signedValue (bs : List Byte) : Int :=
  valueIn 256 UInt8.toNat bs - if topBit bs then 256 ^ bs.length else 0

section

variable {vs ws : List Byte} {c c' : Bool}

/-- A row that moves up by a place is doubled, with what comes in and without what leaves. -/
theorem valueIn_of_moved (h : rows ws ++ [c'] = c :: rows vs) :
    valueIn 256 UInt8.toNat ws + 256 ^ ws.length * c'.toNat = c.toNat + 2 * valueIn 256 UInt8.toNat vs := by
  have hb := congrArg binary h
  have hc : binary [c'] = c'.toNat := by simp [binary]
  have hp : 2 ^ (8 * ws.length) = 256 ^ ws.length := by rw [pow_mul]; norm_num
  rw [binary_append, binary_cons c, binary_rows, binary_rows, length_rows, hc, hp] at hb
  exact hb

theorem length_of_moved (h : rows ws ++ [c'] = c :: rows vs) : ws.length = vs.length := by
  have hl := congrArg List.length h
  simp only [List.length_append, List.length_cons, length_rows, List.length_nil] at hl
  omega

theorem topBit_of_moved (h : rows ws ++ [c'] = c :: rows vs) (hn : vs ≠ []) : c' = topBit vs := by
  have hl := List.length_pos_iff.2 hn
  have hi : (rows ws).length = 8 * vs.length - 1 + 1 := by
    rw [length_rows, length_of_moved h]
    omega
  calc c' = (rows ws ++ [c']).getD (rows ws).length false := by simp
    _ = (c :: rows vs).getD (8 * vs.length - 1 + 1) false := by rw [h, hi]
    _ = topBit vs := by rw [topBit_eq, List.getD_cons_succ]

theorem lowBit_of_moved (h : rows ws ++ [c'] = c :: rows vs) (hn : ws ≠ []) :
    c = decide (valueIn 256 UInt8.toNat ws % 2 = 1) := by
  have hl := List.length_pos_iff.2 hn
  have hi : 0 < (rows ws).length := by
    rw [length_rows]
    omega
  calc c = (rows ws ++ [c']).getD 0 false := by rw [h, List.getD_cons_zero]
    _ = (rows ws).getD 0 false := by
      rw [List.getD_eq_getElem?_getD, List.getElem?_append_left hi, List.getD_eq_getElem?_getD]
    _ = decide (valueIn 256 UInt8.toNat ws % 2 = 1) := by rw [← testBit_binary, binary_rows, Nat.testBit_zero]

theorem signedValue_of_moved (h : rows vs ++ [topBit vs] = c :: rows ws) (hn : ws ≠ []) :
    signedValue ws = signedValue vs / 2 := by
  have ht : topBit vs = topBit ws := topBit_of_moved h hn
  have hv := valueIn_of_moved h
  have hc := c.toNat_lt
  unfold signedValue
  rw [← ht, ← length_of_moved h]
  zify at hv
  cases hb : topBit vs with
  | false =>
    rw [hb] at hv
    simp at hv ⊢
    omega
  | true =>
    rw [hb] at hv
    simp at hv ⊢
    omega

end

structure Limb where
  byte : Byte
  after : List Interlude := []

namespace Registers

/-- Turns one limb after the other, the first of them by an operation of its own: the bytes, and the registers at the
end. -/
def turnLimbs (r : Registers) (start next : Rotation) : List Limb → List Byte × Registers
  | [] => ([], r)
  | l :: ls =>
    let t := r.flagged (start.apply l.byte)
    let s := turnLimbs (l.after.foldl Interlude.apply t.2) next next ls
    (t.1 :: s.1, s.2)

@[simp] theorem length_turnLimbs (r : Registers) (start next : Rotation) (ls : List Limb) :
    (r.turnLimbs start next ls).1.length = ls.length := by
  induction ls generalizing r start with
  | nil => rfl
  | cons l ls ih => simp [turnLimbs, ih]

theorem carry_after (r : Registers) (start : Rotation) (l : Limb) :
    (l.after.foldl Interlude.apply (r.flagged (start.apply l.byte)).2).flags.carry =
      (start.apply l.byte r.flags).2.carry := by
  rw [Interlude.carry_foldl, flags_flagged]

/-- Upward: if the first limb takes in a bit at its lower end, so does the row of them all. -/
theorem rows_turnLimbs_rl {r : Registers} {start : Rotation} {l : Limb} {ls : List Limb} {c : Bool}
    (h : (start.apply l.byte r.flags).1.bits ++ [(start.apply l.byte r.flags).2.carry] = c :: l.byte.bits) :
    rows (r.turnLimbs start .rl (l :: ls)).1 ++ [(r.turnLimbs start .rl (l :: ls)).2.flags.carry] =
      c :: rows ((l :: ls).map (·.byte)) := by
  induction ls generalizing r start l c with
  | nil =>
    simp only [turnLimbs, List.map_cons, List.map_nil, rows_cons, carry_after, fst_flagged]
    simpa [rows] using h
  | cons k ls ih =>
    let q := l.after.foldl Interlude.apply (r.flagged (start.apply l.byte)).2
    -- what the first limb carries out is the bit that the others take in
    have hk := ih (Rotation.turns .rl k.byte q.flags)
    rw [carry_after] at hk
    calc rows (r.turnLimbs start .rl (l :: k :: ls)).1 ++ [(r.turnLimbs start .rl (l :: k :: ls)).2.flags.carry]
      _ = (start.apply l.byte r.flags).1.bits ++ (rows (q.turnLimbs .rl .rl (k :: ls)).1 ++
          [(q.turnLimbs .rl .rl (k :: ls)).2.flags.carry]) := List.append_assoc _ _ _
      _ = ((start.apply l.byte r.flags).1.bits ++ [(start.apply l.byte r.flags).2.carry]) ++
          rows ((k :: ls).map (·.byte)) := by rw [hk, List.append_assoc, List.singleton_append]
      _ = c :: rows ((l :: k :: ls).map (·.byte)) := by rw [h, List.cons_append, ← rows_cons]; rfl

/-- Downward: if the first limb takes in a bit at its upper end, so does the row of them all. -/
theorem rows_turnLimbs_rr {r : Registers} {start : Rotation} {l : Limb} {ls : List Limb} {c : Bool}
    (h : (start.apply l.byte r.flags).2.carry :: (start.apply l.byte r.flags).1.bits = l.byte.bits ++ [c]) :
    (r.turnLimbs start .rr (l :: ls)).2.flags.carry :: rows (r.turnLimbs start .rr (l :: ls)).1.reverse =
      rows ((l :: ls).map (·.byte)).reverse ++ [c] := by
  induction ls generalizing r start l c with
  | nil =>
    simp only [turnLimbs, List.map_cons, List.map_nil, List.reverse_singleton, rows_cons, carry_after, fst_flagged]
    simpa [rows] using h
  | cons k ls ih =>
    let q := l.after.foldl Interlude.apply (r.flagged (start.apply l.byte)).2
    have hk := ih (Rotation.turns .rr k.byte q.flags)
    rw [carry_after] at hk
    calc (r.turnLimbs start .rr (l :: k :: ls)).2.flags.carry :: rows (r.turnLimbs start .rr (l :: k :: ls)).1.reverse
      _ = ((q.turnLimbs .rr .rr (k :: ls)).2.flags.carry :: rows (q.turnLimbs .rr .rr (k :: ls)).1.reverse) ++
          (start.apply l.byte r.flags).1.bits := congrArg _ (rows_reverse_cons _ _)
      _ = rows ((k :: ls).map (·.byte)).reverse ++
          ((start.apply l.byte r.flags).2.carry :: (start.apply l.byte r.flags).1.bits) := by
        rw [hk, List.append_assoc, List.singleton_append]
      _ = rows ((l :: k :: ls).map (·.byte)).reverse ++ [c] := by
        rw [h, ← List.append_assoc, ← rows_reverse_cons]
        rfl

theorem limbs_doubled (r : Registers) {ls : List Limb} (hn : ls ≠ []) :
    let vs := ls.map (·.byte)
    let s := r.turnLimbs .sla .rl ls
    valueIn 256 UInt8.toNat s.1 = 2 * valueIn 256 UInt8.toNat vs % 256 ^ vs.length ∧ s.2.flags.carry = topBit vs := by
  intro vs s
  obtain ⟨l, us, rfl⟩ := List.exists_cons_of_ne_nil hn
  have h : rows s.1 ++ [s.2.flags.carry] = false :: rows vs :=
    rows_turnLimbs_rl (Rotation.turns .sla l.byte r.flags)
  have hw : valueIn 256 UInt8.toNat s.1 < 256 ^ s.1.length := valueIn_lt (by decide) fun b _ => b.toNat_lt
  have hv := valueIn_of_moved h
  rw [Bool.toNat_false, Nat.zero_add] at hv
  rw [← hv, ← length_of_moved h, Nat.add_mul_mod_self_left, Nat.mod_eq_of_lt hw]
  exact ⟨rfl, topBit_of_moved h (List.cons_ne_nil _ _)⟩

theorem limbs_halved (r : Registers) {ls : List Limb} (hn : ls ≠ []) :
    let vs := (ls.map (·.byte)).reverse
    let s := r.turnLimbs .srl .rr ls
    valueIn 256 UInt8.toNat s.1.reverse = valueIn 256 UInt8.toNat vs / 2 ∧
      s.2.flags.carry = decide (valueIn 256 UInt8.toNat vs % 2 = 1) := by
  intro vs s
  obtain ⟨l, us, rfl⟩ := List.exists_cons_of_ne_nil hn
  have h : s.2.flags.carry :: rows s.1.reverse = rows vs ++ [false] :=
    rows_turnLimbs_rr (Rotation.turns .srl l.byte r.flags)
  have hv := valueIn_of_moved h.symm
  have hc := s.2.flags.carry.toNat_lt
  rw [Bool.toNat_false, Nat.mul_zero, Nat.add_zero] at hv
  exact ⟨by omega, lowBit_of_moved h.symm (by simp [vs])⟩

theorem limbs_halved_signed (r : Registers) {ls : List Limb} (hn : ls ≠ []) :
    let vs := (ls.map (·.byte)).reverse
    let s := r.turnLimbs .sra .rr ls
    signedValue s.1.reverse = signedValue vs / 2 ∧
      s.2.flags.carry = decide (valueIn 256 UInt8.toNat vs % 2 = 1) := by
  intro vs s
  obtain ⟨l, us, rfl⟩ := List.exists_cons_of_ne_nil hn
  have h : s.2.flags.carry :: rows s.1.reverse = rows vs ++ [l.byte.bit 7] :=
    rows_turnLimbs_rr (Rotation.turns .sra l.byte r.flags)
  have ht : topBit vs = l.byte.bit 7 := topBit_reverse_cons _ _
  rw [← ht] at h
  have hs : s.1.reverse ≠ [] := List.ne_nil_of_length_pos (by simp [s])
  exact ⟨signedValue_of_moved h.symm hs, lowBit_of_moved h.symm (by simp [vs])⟩

theorem limbs_restored (r q : Registers) {ls ks : List Limb} (hn : ls ≠ [])
    (hk : ks.map (·.byte) = (r.turnLimbs .rl .rl ls).1)
    (hq : q.flags.carry = (r.turnLimbs .rl .rl ls).2.flags.carry) :
    let s := q.turnLimbs .rr .rr ks.reverse
    s.1.reverse = ls.map (·.byte) ∧ s.2.flags.carry = r.flags.carry := by
  intro s
  obtain ⟨l, us, rfl⟩ := List.exists_cons_of_ne_nil hn
  have hl : ks.length = us.length + 1 := by simpa using congrArg List.length hk
  have hr : ks.reverse ≠ [] := by simp [← List.length_pos_iff, hl]
  obtain ⟨t, ds, hr⟩ := List.exists_cons_of_ne_nil hr
  have hu : rows _ ++ [_] = r.flags.carry :: rows ((l :: us).map (·.byte)) :=
    rows_turnLimbs_rl (Rotation.turns .rl l.byte r.flags)
  have hd : _ :: rows _ = rows ((t :: ds).map (·.byte)).reverse ++ [q.flags.carry] :=
    rows_turnLimbs_rr (Rotation.turns .rr t.byte q.flags)
  rw [← hr, List.map_reverse, List.reverse_reverse, hk, hq, hu] at hd
  obtain ⟨hc, hb⟩ := List.cons.inj hd
  exact ⟨rows_inj hb, hc⟩

/-- Numbers of any length are doubled from the lowest byte up, and halved from the highest down, with the bit that is
lost in the carry at the end; with the sign of two's complement as well. A turn down brings back what a turn up has made
of the bytes and of the carry. Registers may change between the bytes, and counters may count. -/
theorem limbs_turned (r : Registers) (ls : List Limb) (hn : ls ≠ []) :
    let bs := ls.map (·.byte)
    let x := valueIn 256 UInt8.toNat bs
    let doubled := r.turnLimbs .sla .rl ls
    let halved := r.turnLimbs .srl .rr ls.reverse
    let halvedSigned := r.turnLimbs .sra .rr ls.reverse
    let up := r.turnLimbs .rl .rl ls
    (doubled.1.length = bs.length ∧ valueIn 256 UInt8.toNat doubled.1 = 2 * x % 256 ^ bs.length ∧
      doubled.2.flags.carry = topBit bs) ∧
    (halved.1.length = bs.length ∧ valueIn 256 UInt8.toNat halved.1.reverse = x / 2 ∧
      halved.2.flags.carry = decide (x % 2 = 1)) ∧
    (halvedSigned.1.length = bs.length ∧ signedValue halvedSigned.1.reverse = signedValue bs / 2 ∧
      halvedSigned.2.flags.carry = decide (x % 2 = 1)) ∧
    ∀ (between : List Interlude) (ks : List Limb), ks.map (·.byte) = up.1 →
      let down := (between.foldl Interlude.apply up.2).turnLimbs .rr .rr ks.reverse
      down.1.reverse = bs ∧ down.2.flags.carry = r.flags.carry := by
  intro bs x doubled halved halvedSigned up
  have hr : ls.reverse ≠ [] := List.reverse_ne_nil_iff.2 hn
  have hb : (ls.reverse.map (·.byte)).reverse = bs := by rw [List.map_reverse, List.reverse_reverse]
  have hh := r.limbs_halved hr
  have hs := r.limbs_halved_signed hr
  rw [hb] at hh hs
  exact ⟨⟨by simp [doubled, bs], r.limbs_doubled hn⟩, ⟨by simp [halved, bs], hh⟩, ⟨by simp [halvedSigned, bs], hs⟩,
    fun between ks hk => r.limbs_restored _ hn hk (Interlude.carry_foldl _ _)⟩

/-- A negative number of three bytes, with a count between the first two. -/
theorem limbs_turned_three :
    let ls : List Limb := [⟨0x01, [.decrement 2]⟩, ⟨0xC0, []⟩, ⟨0x80, []⟩]
    let up := powerUp.turnLimbs .rl .rl ls
    let ks : List Limb := up.1.map fun b => { byte := b }
    ls ≠ [] ∧ valueIn 256 UInt8.toNat (powerUp.turnLimbs .sla .rl ls).1 = 0x018002 ∧
      valueIn 256 UInt8.toNat (powerUp.turnLimbs .srl .rr ls.reverse).1.reverse = 0x406000 ∧
      signedValue (powerUp.turnLimbs .sra .rr ls.reverse).1.reverse = -0x3FA000 ∧
      ks.map (·.byte) = up.1 ∧ (up.2.turnLimbs .rr .rr ks.reverse).1.reverse = [0x01, 0xC0, 0x80] := by
  intro ls up ks
  have hn : ls ≠ [] := List.cons_ne_nil _ _
  have hk : ks.map (·.byte) = up.1 := by decide
  obtain ⟨⟨-, hx, -⟩, ⟨-, hh, -⟩, ⟨-, hs, -⟩, hb⟩ := limbs_turned powerUp ls hn
  exact ⟨hn, hx.trans (by decide), hh.trans (by decide), hs.trans (by decide), hk, (hb [] ks hk).1⟩

end Registers

end Sm83
