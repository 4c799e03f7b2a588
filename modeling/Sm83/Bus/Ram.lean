import Sm83.Bus

/-!
Flat memory: one cell for each address and no mapping. A bulk load is cut at the last cell, while the word
accesses of the bus wrap.
-/

set_option autoImplicit false

namespace Sm83

structure Ram where
  cells : Vector Byte 65536

namespace Ram

def empty : Ram := ⟨Vector.replicate 65536 0⟩

def get (m : Ram) (a : Word) : Byte :=
  have : a.toNat < 65536 := a.toNat_lt
  m.cells[a.toNat]

def set (m : Ram) (a : Word) (v : Byte) : Ram := ⟨m.cells.set a.toNat v a.toNat_lt⟩

@[simp] theorem get_empty (a : Word) : empty.get a = 0 := by
  simp [get, empty]

theorem get_set (m : Ram) (a b : Word) (v : Byte) :
    (m.set a v).get b = if a = b then v else m.get b := by
  simp [get, set, Vector.getElem_set, UInt16.toNat_inj]

/-- Places the bytes from the cell of number `i` on and drops those that lie past the last cell. -/
def place (m : Ram) (i : Nat) : List Byte → Ram
  | [] => m
  | b :: bs => if h : i < 65536 then place ⟨m.cells.set i b h⟩ (i + 1) bs else m

theorem get_place (m : Ram) (i : Nat) (bytes : List Byte) (a : Word) :
    (m.place i bytes).get a =
      if i ≤ a.toNat then bytes.getD (a.toNat - i) (m.get a) else m.get a := by
  induction bytes generalizing m i with
  | nil => simp [place]
  | cons b bs ih =>
    have ha := a.toNat_lt
    simp only [place]
    split
    · rw [ih]
      simp only [get, Vector.getElem_set]
      by_cases h1 : i = a.toNat
      · have h3 : ¬ a.toNat + 1 ≤ a.toNat := by omega
        simp [h1, h3]
      · by_cases h2 : i ≤ a.toNat
        · have h3 : i + 1 ≤ a.toNat := by omega
          have h4 : a.toNat - i = (a.toNat - (i + 1)) + 1 := by omega
          simp [h1, h2, h3, h4]
        · have h3 : ¬ i + 1 ≤ a.toNat := by omega
          simp [h1, h2, h3]
    · have h2 : ¬ i ≤ a.toNat := by omega
      simp [h2]

def load (m : Ram) (origin : Word) (bytes : List Byte) : Ram := m.place origin.toNat bytes

theorem get_load (m : Ram) (origin : Word) (bytes : List Byte) (a : Word) :
    (m.load origin bytes).get a =
      if origin.toNat ≤ a.toNat then bytes.getD (a.toNat - origin.toNat) (m.get a) else m.get a :=
  get_place m origin.toNat bytes a

/-- An image goes to the first cells, where the entry point of a cartridge meets the program counter. -/
def loadImage (m : Ram) (image : List Byte) : Ram := m.load 0 image

def imageWarning? (image : List Byte) : Option String :=
  if 65536 < image.length then
    some s!"ROM is {image.length} bytes; only the first 65536 are mapped"
  else none

def ofImage (image : List Byte) : Ram := empty.loadImage image

/-- The `n` cells from `a` on, as far as there are any. -/
def slice (m : Ram) (a : Word) (n : Nat) : List Byte :=
  (m.cells.toArray.extract a.toNat (a.toNat + n)).toList

def describe (_ : Ram) : String := "FlatMemory \x7b size: 65536 \x7d"

instance : Bus Ram where
  read m a := (m.get a, m)
  write m a v := m.set a v

@[simp] theorem read_eq (m : Ram) (a : Word) : Bus.read m a = (m.get a, m) := rfl

@[simp] theorem write_eq (m : Ram) (a : Word) (v : Byte) : Bus.write m a v = m.set a v := rfl

end Ram

end Sm83
