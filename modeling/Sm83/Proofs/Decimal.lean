import Sm83.Proofs.Columns
import Sm83.Processor.Perform

/-!
Decimal numbers, two digits a byte. The adjustment after each column brings the byte back to two digits and
makes the carry that of a hundred, which the next column takes in.
-/

set_option autoImplicit false

namespace Sm83

namespace Byte

def IsDecimal (b : Byte) : Prop := b.toNat / 16 ≤ 9 ∧ b.toNat % 16 ≤ 9

instance (b : Byte) : Decidable b.IsDecimal := inferInstanceAs (Decidable (_ ∧ _))

def decimal (b : Byte) : Nat := 10 * (b.toNat / 16) + b.toNat % 16

theorem IsDecimal.decimal_lt {b : Byte} (h : b.IsDecimal) : b.decimal < 100 := by
  obtain ⟨hh, hl⟩ := h
  unfold decimal
  omega

end Byte

namespace Arithmetic

def adjusted (f : Byte → Byte → Bool → Byte × Flags) (a b : Byte) (c : Bool) : Byte × Flags :=
  decimalAdjust (f a b c).1 (f a b c).2

theorem toNat_adjustment (low high : Bool) :
    ((if low then 0x06 else 0) + (if high then 0x60 else 0) : Byte).toNat = 6 * low.toNat + 96 * high.toNat := by
  cases low <;> cases high <;> rfl

/-- After an addition a digit gets six more if it has lost a carry, or is too large. -/
theorem toNat_decimalAdjust_add (a : Byte) {f : Flags} (h : f.subtract = false) :
    (decimalAdjust a f).1.toNat = (a.toNat + (6 * (f.halfCarry || decide (9 < a.toNat % 16)).toNat +
      96 * (f.carry || decide (153 < a.toNat)).toNat)) % 256 := by
  have hr : (decimalAdjust a f).1 = a + ((if f.halfCarry || decide (9 < a.toNat % 16) then 0x06 else 0) +
      if f.carry || decide (153 < a.toNat) then 0x60 else 0) := by simp [decimalAdjust, h]
  rw [hr, UInt8.toNat_add, toNat_adjustment]

/-- After a subtraction a digit gets six less if it has borrowed. -/
theorem toNat_decimalAdjust_sub (a : Byte) {f : Flags} (h : f.subtract = true) :
    (decimalAdjust a f).1.toNat =
      (256 - (6 * f.halfCarry.toNat + 96 * f.carry.toNat) + a.toNat) % 256 := by
  have hr : (decimalAdjust a f).1 = a - ((if f.halfCarry then 0x06 else 0) + if f.carry then 0x60 else 0) := by
    simp [decimalAdjust, h]
  rw [hr, UInt8.toNat_sub, toNat_adjustment]

end Arithmetic

open Arithmetic

theorem adjusted_addCarry {a b : Byte} (c : Bool) (ha : a.IsDecimal) (hb : b.IsDecimal) :
    (adjusted addCarry a b c).1.IsDecimal ∧
      (adjusted addCarry a b c).1.decimal + 100 * (adjusted addCarry a b c).2.carry.toNat =
        a.decimal + b.decimal + c.toNat := by
  have hc := c.toNat_lt
  have hz := toNat_addCarry a b c
  have ht : (adjusted addCarry a b c).1.toNat = _ := toNat_decimalAdjust_add (addCarry a b c).1 rfl
  have hk : (adjusted addCarry a b c).2.carry =
      ((addCarry a b c).2.carry || decide (153 < (addCarry a b c).1.toNat)) := by
    simp [adjusted, decimalAdjust, addCarry]
  have hh : (addCarry a b c).2.halfCarry = decide (15 < a.toNat % 16 + b.toNat % 16 + c.toNat) := rfl
  have hf : (addCarry a b c).2.carry = decide (255 < a.toNat + b.toNat + c.toNat) := rfl
  unfold Byte.IsDecimal Byte.decimal at *
  rw [hk, ht, hh, hf]
  rw [hf] at hz
  generalize (addCarry a b c).1.toNat = z at hz ⊢
  rw [← Bool.decide_or, ← Bool.decide_or]
  by_cases hw : 255 < a.toNat + b.toNat + c.toNat <;>
    by_cases hl : 15 < a.toNat % 16 + b.toNat % 16 + c.toNat ∨ 9 < z % 16 <;>
    by_cases hu : 153 < z <;>
    simp only [hw, hl, hu, true_or, false_or, decide_true, decide_false, Bool.toNat_true,
      Bool.toNat_false] at hz ⊢ <;> omega

theorem adjusted_subBorrow {a b : Byte} (c : Bool) (ha : a.IsDecimal) (hb : b.IsDecimal) :
    (adjusted subBorrow a b c).1.IsDecimal ∧
      (adjusted subBorrow a b c).1.decimal + b.decimal + c.toNat =
        a.decimal + 100 * (adjusted subBorrow a b c).2.carry.toNat := by
  have hc := c.toNat_lt
  have hz := toNat_subBorrow a b c
  have ht : (adjusted subBorrow a b c).1.toNat = _ := toNat_decimalAdjust_sub (subBorrow a b c).1 rfl
  have hk : (adjusted subBorrow a b c).2.carry = (subBorrow a b c).2.carry := by
    simp [adjusted, decimalAdjust, subBorrow]
  have hh : (subBorrow a b c).2.halfCarry = decide (a.toNat % 16 < b.toNat % 16 + c.toNat) := rfl
  have hf : (subBorrow a b c).2.carry = decide (a.toNat < b.toNat + c.toNat) := rfl
  unfold Byte.IsDecimal Byte.decimal at *
  rw [hk, ht, hh, hf]
  rw [hf] at hz
  generalize (subBorrow a b c).1.toNat = z at hz ⊢
  by_cases hl : a.toNat % 16 < b.toNat % 16 + c.toNat <;> by_cases hu : a.toNat < b.toNat + c.toNat <;>
    simp only [hl, hu, decide_true, decide_false, Bool.toNat_true, Bool.toNat_false] at hz ⊢ <;> omega

theorem exact_adjusted_addCarry : Exact (adjusted addCarry) 1 100 Byte.decimal Byte.IsDecimal where
  closed _ _ c ha hb := (adjusted_addCarry c ha hb).1
  small _ ha := ha.decimal_lt
  law _ _ c ha hb := by
    have h := (adjusted_addCarry c ha hb).2
    omega

theorem exact_adjusted_subBorrow : Exact (adjusted subBorrow) (-1) 100 Byte.decimal Byte.IsDecimal where
  closed _ _ c ha hb := (adjusted_subBorrow c ha hb).1
  small _ ha := ha.decimal_lt
  law _ _ c ha hb := by
    have h := (adjusted_subBorrow c ha hb).2
    omega

namespace Registers

def adjust (r : Registers) : Registers :=
  let t := decimalAdjust (r.get .a) r.flags
  (r.set .a t.1).setFlags t.2

theorem regs_perform_decimalAdjust {μ : Type} [Bus μ] (p : Processor μ) :
    (Inherent.decimalAdjust.perform p).regs = p.regs.adjust := rfl

def adjusting (f : Byte → Byte → Flags → Byte × Flags) (r : Registers) (a b : Byte) : Byte × Registers :=
  let t := r.flagged (f a b)
  let s := (t.2.set .a t.1).adjust
  (s.get .a, s)

theorem flags_set_a (r : Registers) (v : Byte) : (r.set .a v).flags = r.flags := by
  rw [flags, get_set_of_ne r v (by decide), flags]

theorem withFlags_adjusting (f : Byte → Byte → Flags → Byte × Flags) (r : Registers) (a b : Byte) :
    withFlags (adjusting f r a b) = decimalAdjust (f a b r.flags).1 (f a b r.flags).2 := by
  have hv : ((r.flagged (f a b)).2.set .a (f a b r.flags).1).get .a = (f a b r.flags).1 := get_set_self _ .a _
  have hf : ((r.flagged (f a b)).2.set .a (f a b r.flags).1).flags = (f a b r.flags).2 := by
    rw [flags_set_a, flags_flagged]
  refine Prod.ext ?_ ?_
  · have hs (q : Registers) (g : Flags) : (q.setFlags g).get .a = q.get .a := get_set_of_ne q _ (by decide)
    simp only [withFlags, adjusting, adjust, fst_flagged, hs, hv, hf]
    exact get_set_self _ .a _
  · simp only [withFlags, adjusting, adjust, fst_flagged, flags_setFlags, hv, hf]

def addDecimal (r : Registers) (cs : List Column) : List (Byte × Registers) :=
  r.cascade (adjusting Arithmetic.add) (adjusting addWithCarry) cs

def subDecimal (r : Registers) (cs : List Column) : List (Byte × Registers) :=
  r.cascade (adjusting Arithmetic.sub) (adjusting subWithCarry) cs

theorem withFlags_addDecimal (r : Registers) (cs : List Column) :
    (r.addDecimal cs).map withFlags = ripple (adjusted addCarry) false cs :=
  cascade_eq_ripple (withFlags_adjusting _) (withFlags_adjusting _) r cs

theorem withFlags_subDecimal (r : Registers) (cs : List Column) :
    (r.subDecimal cs).map withFlags = ripple (adjusted subBorrow) false cs :=
  cascade_eq_ripple (withFlags_adjusting _) (withFlags_adjusting _) r cs

/-- Decimal numbers of any length are added and subtracted two digits at a time. All the bytes of the result
are two digits each, and the last carry tells that the sum has no room, or that the difference is negative. -/
theorem columns_decimal (r : Registers) (cs : List Column)
    (h : ∀ c ∈ cs, c.first.IsDecimal ∧ c.second.IsDecimal) :
    ((∀ t ∈ r.addDecimal cs, t.1.IsDecimal) ∧ Sums 100 Byte.decimal cs (r.addDecimal cs)) ∧
      (∀ t ∈ r.subDecimal cs, t.1.IsDecimal) ∧ Differs 100 Byte.decimal cs (r.subDecimal cs) := by
  have ha := r.withFlags_addDecimal cs
  have hs := r.withFlags_subDecimal cs
  refine ⟨⟨fun t ht => ?_, exact_adjusted_addCarry.sums (by decide) h ha⟩, fun t ht => ?_,
    exact_adjusted_subBorrow.differs (by decide) h hs⟩
  · refine exact_adjusted_addCarry.valid_ripple h false t.1 ?_
    rw [← map_fst_cascade ha]
    exact List.mem_map_of_mem ht
  · refine exact_adjusted_subBorrow.valid_ripple h false t.1 ?_
    rw [← map_fst_cascade hs]
    exact List.mem_map_of_mem ht

/-- The sum of 9995 and 8 has no room in two bytes, and nor has their difference taken the other way round. -/
theorem columns_decimal_of_four_digits :
    let cs : List Column := [⟨0x95, 0x08, []⟩, ⟨0x99, 0x00, []⟩]
    let ds : List Column := [⟨0x08, 0x95, []⟩, ⟨0x00, 0x99, []⟩]
    (∀ c ∈ cs, c.first.IsDecimal ∧ c.second.IsDecimal) ∧
      Sums 100 Byte.decimal cs (powerUp.addDecimal cs) ∧ valueIn 100 Byte.decimal (Column.firsts cs) = 9995 ∧
      (powerUp.addDecimal cs).map Prod.fst = [0x03, 0x00] ∧
      Differs 100 Byte.decimal ds (powerUp.subDecimal ds) ∧
      (powerUp.subDecimal ds).map Prod.fst = [0x13, 0x00] := by
  intro cs ds
  have hc : ∀ c ∈ cs, c.first.IsDecimal ∧ c.second.IsDecimal := by decide
  have hd : ∀ c ∈ ds, c.first.IsDecimal ∧ c.second.IsDecimal := by decide
  exact ⟨hc, (columns_decimal powerUp cs hc).1.2, by decide, by decide,
    (columns_decimal powerUp ds hd).2.2, by decide⟩

end Registers

end Sm83
