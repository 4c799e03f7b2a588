import Sm83.Word

/-!
Hexadecimal text of fixed width, most significant digit first.
-/

set_option autoImplicit false

namespace Sm83.Hex

inductive Letters where
  | lower | upper
  deriving DecidableEq, Repr

/-- The base-16 digit of value `d % 16`. -/
def digit (letters : Letters) (d : Nat) : Char :=
  let d := d % 16
  if d < 10 then Char.ofNat (48 + d)
  else match letters with
    | .lower => Char.ofNat (87 + d)
    | .upper => Char.ofNat (55 + d)

def digits (letters : Letters) : Nat → Nat → List Char
  | 0, _ => []
  | width + 1, n => digits letters width (n / 16) ++ [digit letters n]

theorem length_digits (letters : Letters) (width n : Nat) :
    (digits letters width n).length = width := by
  induction width generalizing n with
  | zero => rfl
  | succ width ih => simp [digits, ih]

def value? (c : Char) : Option Nat :=
  let k := c.toNat
  if 48 ≤ k ∧ k ≤ 57 then some (k - 48)
  else if 65 ≤ k ∧ k ≤ 70 then some (k - 55)
  else if 97 ≤ k ∧ k ≤ 102 then some (k - 87)
  else none

theorem value?_lt {c : Char} {d : Nat} (h : value? c = some d) : d < 16 := by
  simp only [value?] at h
  split at h
  · cases h; omega
  · split at h
    · cases h; omega
    · split at h
      · cases h; omega
      · cases h

theorem value?_digit (letters : Letters) (d : Nat) : value? (digit letters d) = some (d % 16) := by
  have h : d % 16 < 16 := Nat.mod_lt _ (by decide)
  simp only [digit]
  generalize d % 16 = k at h
  cases letters <;> (revert h; revert k; decide)

def render (letters : Letters) (width n : Nat) : String :=
  String.ofList (digits letters width n)

def byte (b : Byte) : String := "0x" ++ render .upper 2 b.toNat

def word (w : Word) : String := "0x" ++ render .upper 4 w.toNat

end Sm83.Hex
