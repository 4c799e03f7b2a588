import Mathlib.Data.Nat.Digits.Defs
import Mathlib.Tactic.LinearCombination
import Sm83.Arithmetic
import Sm83.Proofs.Histories
import Sm83.Registers

/-!
Numbers of many bytes, added and subtracted column by column with the lowest first. The carry goes from one
column to the next in the flags, where counting up or down leaves it alone.
-/

set_option autoImplicit false

namespace Sm83

/-- What can come between two columns: a counter goes up or down, or registers change but no flag does. -/
inductive Interlude where
  | increment (v : Byte)
  | decrement (v : Byte)
  | other (f : Registers → Registers) (keeps : ∀ r, (f r).flags = r.flags)

def Interlude.apply (r : Registers) : Interlude → Registers
  | .increment v => (r.flagged (Arithmetic.increment v)).2
  | .decrement v => (r.flagged (Arithmetic.decrement v)).2
  | .other f _ => f r

structure Column where
  first : Byte
  second : Byte
  after : List Interlude := []

namespace Column

def firsts (cs : List Column) : List Byte := cs.map (·.first)

def seconds (cs : List Column) : List Byte := cs.map (·.second)

end Column

/-- The number that the bytes are the digits of, the lowest first. -/
def valueIn (base : Nat) (digit : Byte → Nat) (bs : List Byte) : Nat := Nat.ofDigits base (bs.map digit)

theorem valueIn_cons (base : Nat) (digit : Byte → Nat) (b : Byte) (bs : List Byte) :
    valueIn base digit (b :: bs) = digit b + base * valueIn base digit bs := by
  simp [valueIn, Nat.ofDigits_cons]

theorem valueIn_lt {base : Nat} {digit : Byte → Nat} {bs : List Byte} (hb : 1 < base)
    (h : ∀ b ∈ bs, digit b < base) : valueIn base digit bs < base ^ bs.length := by
  have hl := Nat.ofDigits_lt_base_pow_length hb (l := bs.map digit) (by simpa using h)
  simpa [valueIn] using hl

namespace Registers

@[simp] theorem flags_flagged {α : Type} (r : Registers) (f : Flags → α × Flags) :
    (r.flagged f).2.flags = (f r.flags).2 := flags_setFlags _ _

@[simp] theorem fst_flagged {α : Type} (r : Registers) (f : Flags → α × Flags) :
    (r.flagged f).1 = (f r.flags).1 := rfl

theorem get_setFlags (r : Registers) (f : Flags) : (r.setFlags f).get .f = f.toByte := by
  rw [setFlags, get_set_self, if_pos rfl, ← Flags.toByte_ofByte, Flags.ofByte_toByte]

/-- One operation on each column, the first of them of its own kind: the results, each with the registers right
after it. -/
def cascade (start next : Registers → Byte → Byte → Byte × Registers) (r : Registers) :
    List Column → List (Byte × Registers)
  | [] => []
  | c :: cs =>
    let t := start r c.first c.second
    t :: cascade next next (c.after.foldl Interlude.apply t.2) cs

end Registers

theorem Interlude.carry_apply (r : Registers) (i : Interlude) : (i.apply r).flags.carry = r.flags.carry := by
  cases i with
  | increment v => simp [apply, Arithmetic.increment]
  | decrement v => simp [apply, Arithmetic.decrement]
  | other f keeps => simp [apply, keeps]

theorem Interlude.carry_foldl (r : Registers) (is : List Interlude) :
    (is.foldl apply r).flags.carry = r.flags.carry :=
  foldl_same (·.flags.carry) carry_apply r is

/-! The columns without the registers: all that counts of the flags is the carry. -/

def ripple (f : Byte → Byte → Bool → Byte × Flags) (carry : Bool) : List Column → List (Byte × Flags)
  | [] => []
  | c :: cs => f c.first c.second carry :: ripple f (f c.first c.second carry).2.carry cs

def carryOut (f : Byte → Byte → Bool → Byte × Flags) (carry : Bool) : List Column → Bool
  | [] => carry
  | c :: cs => carryOut f (f c.first c.second carry).2.carry cs

section

variable {f : Byte → Byte → Bool → Byte × Flags}
  {start next : Registers → Byte → Byte → Byte × Registers}

@[simp] theorem length_ripple (carry : Bool) (cs : List Column) : (ripple f carry cs).length = cs.length := by
  induction cs generalizing carry with
  | nil => rfl
  | cons c cs ih => simp [ripple, ih]

theorem ripple_append (carry : Bool) (cs ds : List Column) :
    ripple f carry (cs ++ ds) = ripple f carry cs ++ ripple f (carryOut f carry cs) ds := by
  induction cs generalizing carry with
  | nil => rfl
  | cons c cs ih => simp [ripple, carryOut, ih]

theorem getLast?_ripple (carry : Bool) (c : Column) (cs : List Column) :
    (ripple f carry (c :: cs)).getLast?.map (·.2.carry) = some (carryOut f carry (c :: cs)) := by
  induction cs generalizing carry c with
  | nil => rfl
  | cons d ds ih =>
    rw [ripple, carryOut, ← ih, ripple, List.getLast?_cons_cons]

def withFlags (t : Byte × Registers) : Byte × Flags := (t.1, t.2.flags)

theorem cascade_eq_ripple_next (hn : ∀ r a b, withFlags (next r a b) = f a b r.flags.carry) (r : Registers)
    (cs : List Column) : (r.cascade next next cs).map withFlags = ripple f r.flags.carry cs := by
  induction cs generalizing r with
  | nil => rfl
  | cons c cs ih =>
    have hc : (next r c.first c.second).2.flags = (f c.first c.second r.flags.carry).2 :=
      congrArg Prod.snd (hn r c.first c.second)
    rw [Registers.cascade, List.map_cons, ih, hn, ripple, Interlude.carry_foldl, hc]

theorem cascade_eq_ripple (hs : ∀ r a b, withFlags (start r a b) = f a b false)
    (hn : ∀ r a b, withFlags (next r a b) = f a b r.flags.carry) (r : Registers) (cs : List Column) :
    (r.cascade start next cs).map withFlags = ripple f false cs := by
  cases cs with
  | nil => rfl
  | cons c cs =>
    have hc : (start r c.first c.second).2.flags = (f c.first c.second false).2 :=
      congrArg Prod.snd (hs r c.first c.second)
    rw [Registers.cascade, List.map_cons, cascade_eq_ripple_next hn, hs, ripple, Interlude.carry_foldl, hc]

end

/-- On bytes that stand for digits of the base the operation is exact: it adds, or subtracts if the sign is
negative, and the carry is what the digit of the result lacks. -/
structure Exact (f : Byte → Byte → Bool → Byte × Flags) (sign : Int) (base : Nat) (digit : Byte → Nat)
    (valid : Byte → Prop) : Prop where
  closed : ∀ a b c, valid a → valid b → valid (f a b c).1
  small : ∀ a, valid a → digit a < base
  law : ∀ a b c, valid a → valid b →
    (digit (f a b c).1 : Int) + sign * (base * (f a b c).2.carry.toNat) = digit a + sign * (digit b + c.toNat)

namespace Exact

variable {f : Byte → Byte → Bool → Byte × Flags} {sign : Int} {base : Nat} {digit : Byte → Nat}
  {valid : Byte → Prop} {cs : List Column}

theorem valid_ripple (h : Exact f sign base digit valid) (hc : ∀ c ∈ cs, valid c.first ∧ valid c.second)
    (carry : Bool) : ∀ z ∈ (ripple f carry cs).map Prod.fst, valid z := by
  induction cs generalizing carry with
  | nil => simp [ripple]
  | cons c cs ih =>
    obtain ⟨ha, hb⟩ := hc c List.mem_cons_self
    rw [ripple, List.map_cons, List.forall_mem_cons]
    exact ⟨h.closed _ _ _ ha hb, ih (fun d hd => hc d (List.mem_cons_of_mem _ hd)) _⟩

theorem total (h : Exact f sign base digit valid) (hc : ∀ c ∈ cs, valid c.first ∧ valid c.second)
    (carry : Bool) :
    (valueIn base digit ((ripple f carry cs).map Prod.fst) : Int) +
        sign * (base ^ cs.length * (carryOut f carry cs).toNat) =
      valueIn base digit (Column.firsts cs) + sign * (valueIn base digit (Column.seconds cs) + carry.toNat) := by
  induction cs generalizing carry with
  | nil => simp [ripple, carryOut, Column.firsts, Column.seconds, valueIn]
  | cons c cs ih =>
    obtain ⟨ha, hb⟩ := hc c List.mem_cons_self
    have hl := h.law c.first c.second carry ha hb
    have hi := ih (fun d hd => hc d (List.mem_cons_of_mem _ hd)) (f c.first c.second carry).2.carry
    simp only [ripple, carryOut, Column.firsts, Column.seconds, List.map_cons, valueIn_cons, List.length_cons]
      at hi ⊢
    -- the carry out of the lowest column is the one that the others take in
    push_cast
    linear_combination hl + (base : Int) * hi

theorem valueIn_ripple_lt (h : Exact f sign base digit valid) (hb : 1 < base)
    (hc : ∀ c ∈ cs, valid c.first ∧ valid c.second) :
    valueIn base digit ((ripple f false cs).map Prod.fst) < base ^ cs.length := by
  have hl := valueIn_lt hb fun z hz => h.small z (h.valid_ripple hc false z hz)
  simpa using hl

theorem sum (h : Exact f 1 base digit valid) (hb : 1 < base)
    (hc : ∀ c ∈ cs, valid c.first ∧ valid c.second) :
    let x := valueIn base digit (Column.firsts cs)
    let y := valueIn base digit (Column.seconds cs)
    valueIn base digit ((ripple f false cs).map Prod.fst) = (x + y) % base ^ cs.length ∧
      carryOut f false cs = decide (base ^ cs.length ≤ x + y) := by
  intro x y
  have hl := h.valueIn_ripple_lt hb hc
  have ht : x + y = valueIn base digit ((ripple f false cs).map Prod.fst) +
      base ^ cs.length * (carryOut f false cs).toNat := by
    have ht := h.total hc false
    rw [Bool.toNat_false, Nat.cast_zero, add_zero] at ht
    zify
    linear_combination -ht
  rw [ht, Nat.add_mul_mod_self_left, Nat.mod_eq_of_lt hl]
  refine ⟨rfl, ?_⟩
  cases carryOut f false cs with
  | false => simpa using hl
  | true => simp

theorem difference (h : Exact f (-1) base digit valid) (hb : 1 < base)
    (hc : ∀ c ∈ cs, valid c.first ∧ valid c.second) :
    let x := valueIn base digit (Column.firsts cs)
    let y := valueIn base digit (Column.seconds cs)
    (valueIn base digit ((ripple f false cs).map Prod.fst) : Int) =
        ((x : Int) - y) % (base ^ cs.length : Nat) ∧
      carryOut f false cs = decide (x < y) := by
  intro x y
  have hl := h.valueIn_ripple_lt hb hc
  have ht : (x : Int) - y = valueIn base digit ((ripple f false cs).map Prod.fst) +
      (base ^ cs.length : Nat) * -((carryOut f false cs).toNat : Int) := by
    have ht := h.total hc false
    rw [Bool.toNat_false, Nat.cast_zero, add_zero] at ht
    push_cast
    linear_combination -ht
  rw [ht, Int.add_mul_emod_self_left, Int.emod_eq_of_lt (by omega) (by omega)]
  refine ⟨rfl, ?_⟩
  cases hk : carryOut f false cs with
  | false =>
    rw [hk, Bool.toNat_false, Nat.cast_zero, neg_zero, mul_zero, add_zero] at ht
    have hx : ¬ x < y := by omega
    simp [hx]
  | true =>
    rw [hk, Bool.toNat_true, Nat.cast_one, mul_neg_one] at ht
    have hx : x < y := by omega
    simp [hx]

end Exact

/-! Binary digits. -/

theorem exact_addCarry : Exact Arithmetic.addCarry 1 256 UInt8.toNat fun _ => True where
  closed _ _ _ _ _ := trivial
  small a _ := a.toNat_lt
  law a b c _ _ := by
    have h := Arithmetic.toNat_addCarry a b c
    omega

theorem exact_subBorrow : Exact Arithmetic.subBorrow (-1) 256 UInt8.toNat fun _ => True where
  closed _ _ _ _ _ := trivial
  small a _ := a.toNat_lt
  law a b c _ _ := by
    have h := Arithmetic.toNat_subBorrow a b c
    omega

/-- The results of columns, with the registers after each of them, are those of a sum. -/
structure Sums (base : Nat) (digit : Byte → Nat) (cs : List Column)
    (ts : List (Byte × Registers)) : Prop where
  length : ts.length = cs.length
  digits : valueIn base digit (ts.map Prod.fst) =
    (valueIn base digit (Column.firsts cs) + valueIn base digit (Column.seconds cs)) % base ^ cs.length
  carry : ∀ t ∈ ts.getLast?, t.2.flags.carry =
    decide (base ^ cs.length ≤ valueIn base digit (Column.firsts cs) + valueIn base digit (Column.seconds cs))

structure Differs (base : Nat) (digit : Byte → Nat) (cs : List Column)
    (ts : List (Byte × Registers)) : Prop where
  length : ts.length = cs.length
  digits : (valueIn base digit (ts.map Prod.fst) : Int) =
    ((valueIn base digit (Column.firsts cs) : Int) - valueIn base digit (Column.seconds cs)) %
      (base ^ cs.length : Nat)
  carry : ∀ t ∈ ts.getLast?, t.2.flags.carry =
    decide (valueIn base digit (Column.firsts cs) < valueIn base digit (Column.seconds cs))

section

variable {f : Byte → Byte → Bool → Byte × Flags}
  {start next : Registers → Byte → Byte → Byte × Registers}
  {base : Nat} {digit : Byte → Nat} {valid : Byte → Prop} {cs : List Column}

theorem map_fst_cascade {r : Registers} (h : (r.cascade start next cs).map withFlags = ripple f false cs) :
    (r.cascade start next cs).map Prod.fst = (ripple f false cs).map Prod.fst := by
  rw [← h, List.map_map]
  rfl

theorem length_cascade {r : Registers} (h : (r.cascade start next cs).map withFlags = ripple f false cs) :
    (r.cascade start next cs).length = cs.length := by
  rw [← length_ripple (f := f) false cs, ← h, List.length_map]

theorem carry_cascade {r : Registers} (h : (r.cascade start next cs).map withFlags = ripple f false cs) :
    ∀ t ∈ (r.cascade start next cs).getLast?, t.2.flags.carry = carryOut f false cs := by
  intro t ht
  cases cs with
  | nil => cases ht
  | cons c cs =>
    have hg := getLast?_ripple (f := f) false c cs
    rw [← h, List.getLast?_map, ht] at hg
    exact Option.some.inj hg

theorem Exact.sums (h : Exact f 1 base digit valid) (hb : 1 < base)
    (hc : ∀ c ∈ cs, valid c.first ∧ valid c.second) {r : Registers}
    (hr : (r.cascade start next cs).map withFlags = ripple f false cs) :
    Sums base digit cs (r.cascade start next cs) := by
  obtain ⟨hd, hk⟩ := h.sum hb hc
  exact ⟨length_cascade hr, by rw [map_fst_cascade hr, hd], fun t ht => by rw [carry_cascade hr t ht, hk]⟩

theorem Exact.differs (h : Exact f (-1) base digit valid) (hb : 1 < base)
    (hc : ∀ c ∈ cs, valid c.first ∧ valid c.second) {r : Registers}
    (hr : (r.cascade start next cs).map withFlags = ripple f false cs) :
    Differs base digit cs (r.cascade start next cs) := by
  obtain ⟨hd, hk⟩ := h.difference hb hc
  exact ⟨length_cascade hr, by rw [map_fst_cascade hr, hd], fun t ht => by rw [carry_cascade hr t ht, hk]⟩

theorem getElem?_cascade {before after : List Column} {c : Column} {r : Registers}
    (h : (r.cascade start next (before ++ c :: after)).map withFlags = ripple f false (before ++ c :: after)) :
    ∃ t, (r.cascade start next (before ++ c :: after))[before.length]? = some t ∧
      withFlags t = f c.first c.second (carryOut f false before) := by
  have hg : ((r.cascade start next (before ++ c :: after)).map withFlags)[before.length]? =
      some (f c.first c.second (carryOut f false before)) := by
    rw [h, ripple_append, ← length_ripple (f := f) false before, List.getElem?_append_right (Nat.le_refl _),
      Nat.sub_self]
    rfl
  rw [List.getElem?_map, Option.map_eq_some_iff] at hg
  exact hg

end

namespace Registers

def addColumns (r : Registers) (cs : List Column) : List (Byte × Registers) :=
  r.cascade (fun r a b => r.flagged (Arithmetic.add a b))
    (fun r a b => r.flagged (Arithmetic.addWithCarry a b)) cs

def subColumns (r : Registers) (cs : List Column) : List (Byte × Registers) :=
  r.cascade (fun r a b => r.flagged (Arithmetic.sub a b))
    (fun r a b => r.flagged (Arithmetic.subWithCarry a b)) cs

theorem withFlags_flagged (r : Registers) (f : Flags → Byte × Flags) :
    withFlags (r.flagged f) = f r.flags := by
  simp [withFlags]

theorem withFlags_addColumns (r : Registers) (cs : List Column) :
    (r.addColumns cs).map withFlags = ripple Arithmetic.addCarry false cs :=
  cascade_eq_ripple (fun r _ _ => r.withFlags_flagged _) (fun r _ _ => r.withFlags_flagged _) r cs

theorem withFlags_subColumns (r : Registers) (cs : List Column) :
    (r.subColumns cs).map withFlags = ripple Arithmetic.subBorrow false cs :=
  cascade_eq_ripple (fun r _ _ => r.withFlags_flagged _) (fun r _ _ => r.withFlags_flagged _) r cs

/-- Numbers of any length are added and subtracted byte by byte, whatever was counted between the bytes, and
the last carry tells that the sum has no room, or that the difference is negative. The other flags are after
each byte those of this byte, and of the carry that comes from the lower ones. A comparison leaves what a
subtraction leaves. -/
theorem columns_binary (r : Registers) (cs : List Column) :
    Sums 256 UInt8.toNat cs (r.addColumns cs) ∧ Differs 256 UInt8.toNat cs (r.subColumns cs) ∧
    (∀ before c after, cs = before ++ c :: after →
      let x := valueIn 256 UInt8.toNat (Column.firsts before)
      let y := valueIn 256 UInt8.toNat (Column.seconds before)
      let a := c.first.toNat % 16
      let b := c.second.toNat % 16
      (∃ t, (r.addColumns cs)[before.length]? = some t ∧
        t.2.flags.zero = (t.1 == 0) ∧ t.2.flags.subtract = false ∧
        t.2.flags.halfCarry = decide (15 < a + b + if 256 ^ before.length ≤ x + y then 1 else 0)) ∧
      ∃ t, (r.subColumns cs)[before.length]? = some t ∧
        t.2.flags.zero = (t.1 == 0) ∧ t.2.flags.subtract = true ∧
        t.2.flags.halfCarry = decide (a < b + if x < y then 1 else 0)) ∧
    ∀ a b, (r.flagged (Arithmetic.compare a b)).2 = (r.flagged (Arithmetic.sub a b)).2 := by
  refine ⟨exact_addCarry.sums (by decide) (by simp) (r.withFlags_addColumns cs),
    exact_subBorrow.differs (by decide) (by simp) (r.withFlags_subColumns cs), ?_, fun _ _ => rfl⟩
  rintro before c after rfl x y a b
  have hx : carryOut Arithmetic.addCarry false before = decide (256 ^ before.length ≤ x + y) :=
    (exact_addCarry.sum (by decide) (by simp)).2
  have hy : carryOut Arithmetic.subBorrow false before = decide (x < y) :=
    (exact_subBorrow.difference (by decide) (by simp)).2
  obtain ⟨s, hs, he⟩ := getElem?_cascade (r.withFlags_addColumns (before ++ c :: after))
  obtain ⟨t, ht, hf⟩ := getElem?_cascade (r.withFlags_subColumns (before ++ c :: after))
  rw [hx] at he
  rw [hy] at hf
  -- the carry into the column is that of the numbers below it
  have carried (p : Prop) [Decidable p] : (decide p).toNat = if p then 1 else 0 := by split <;> simp [*]
  refine ⟨⟨s, hs, ?_⟩, t, ht, ?_⟩
  · obtain ⟨hz, hk⟩ : s.1 = _ ∧ s.2.flags = _ := Prod.ext_iff.1 he
    rw [hz, hk]
    exact ⟨rfl, rfl, by rw [← carried]; rfl⟩
  · obtain ⟨hz, hk⟩ : t.1 = _ ∧ t.2.flags = _ := Prod.ext_iff.1 hf
    rw [hz, hk]
    exact ⟨rfl, rfl, by rw [← carried]; rfl⟩

example :
    (powerUp.addColumns [⟨0xFF, 0x01, [.decrement 2]⟩, ⟨0x12, 0x34, []⟩]).map Prod.fst = [0x00, 0x47] := by decide

end Registers

end Sm83
