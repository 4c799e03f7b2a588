import Sm83.Proofs.Histories
import Sm83.Proofs.Storage

/-!
What the cells of a flat memory hold after any number of changes, which may overlap: at each address the last byte
that was put there. A bulk load ends at the last cell and a word goes on at the first, but neither ever asks for a cell
that is not there.
-/

set_option autoImplicit false

namespace Sm83

namespace Ram

theorem place_of_le (m : Ram) {i : Nat} (bytes : List Byte) (h : 65536 ≤ i) : m.place i bytes = m := by
  cases bytes with
  | nil => rfl
  | cons b bs => exact dif_neg (by omega)

theorem place_append (m : Ram) (i : Nat) (xs ys : List Byte) :
    m.place i (xs ++ ys) = (m.place i xs).place (i + xs.length) ys := by
  induction xs generalizing m i with
  | nil => rfl
  | cons x xs ih =>
    have hlen : i + (x :: xs).length = i + 1 + xs.length := by simp only [List.length_cons]; omega
    rw [List.cons_append, place, place, hlen]
    split
    next h => exact ih _ _
    next h => exact (m.place_of_le ys (by omega)).symm

theorem place_take (m : Ram) {i n : Nat} {bytes : List Byte} (h : n < bytes.length → 65536 ≤ i + n) :
    m.place i (bytes.take n) = m.place i bytes := by
  by_cases hn : n < bytes.length
  · have hlen : (bytes.take n).length = n := List.length_take_of_le (Nat.le_of_lt hn)
    calc m.place i (bytes.take n)
      _ = (m.place i (bytes.take n)).place (i + n) (bytes.drop n) := (place_of_le _ _ (h hn)).symm
      _ = m.place i (bytes.take n ++ bytes.drop n) := by rw [place_append, hlen]
      _ = m.place i bytes := by rw [List.take_append_drop]
  · rw [List.take_of_length_le (Nat.le_of_not_lt hn)]

def cell? (m : Ram) (i : Nat) : Option Byte := m.cells[i]?

theorem cell?_toNat (m : Ram) (a : Word) : m.cell? a.toNat = some (m.get a) :=
  Vector.getElem?_eq_getElem a.toNat_lt

def put? (m : Ram) (i : Nat) (v : Byte) : Option Ram :=
  if h : i < 65536 then some ⟨m.cells.set i v h⟩ else none

theorem put?_toNat (m : Ram) (a : Word) (v : Byte) : m.put? a.toNat v = some (m.set a v) :=
  dif_pos a.toNat_lt

/-- Puts the first `n` bytes into the cells from number `i` on. No byte and no cell may be missing. -/
def copy? (m : Ram) (i : Nat) (bytes : List Byte) : Nat → Option Ram
  | 0 => some m
  | n + 1 => do
    let m ← m.copy? i bytes n
    m.put? (i + n) (← bytes[n]?)

theorem copy?_eq (m : Ram) {i n : Nat} {bytes : List Byte} (hb : n ≤ bytes.length) (hc : i + n ≤ 65536) :
    m.copy? i bytes n = some (m.place i (bytes.take n)) := by
  induction n with
  | zero => simp only [copy?, List.take_zero, place]
  | succ n ih =>
    have hn : n < bytes.length := hb
    have hlen : (bytes.take n).length = n := List.length_take_of_le (by omega)
    have hi : i + n < 65536 := hc
    rw [copy?, ih (by omega) (by omega), List.getElem?_eq_getElem hn, List.take_succ_eq_append_getElem hn, place_append,
      hlen, place, dif_pos hi]
    exact dif_pos hi

/-- As many of the bytes as there are cells from the origin on. -/
def load? (m : Ram) (origin : Word) (bytes : List Byte) : Option Ram :=
  m.copy? origin.toNat bytes (min bytes.length (65536 - origin.toNat))

theorem load?_eq (m : Ram) (origin : Word) (bytes : List Byte) : m.load? origin bytes = some (m.load origin bytes) := by
  have ho := origin.toNat_lt
  rw [load?, m.copy?_eq (Nat.min_le_left _ _) (by omega), m.place_take (by omega), load]

def putWord? (m : Ram) (a v : Word) : Option Ram := do
  let m ← m.put? a.toNat v.low
  m.put? (a + 1).toNat v.high

theorem putWord?_eq (m : Ram) (a v : Word) : m.putWord? a v = some (Bus.writeWord m a v) := by
  rw [putWord?, put?_toNat]
  exact put?_toNat _ _ _

/-- A change of the cells, made from outside or by the processor. -/
inductive Change where
  | load (origin : Word) (bytes : List Byte)
  | image (bytes : List Byte)
  | byte (a : Word) (v : Byte)
  | word (a v : Word)
  | push (sp v : Word)
  deriving DecidableEq, Repr

def change (m : Ram) : Change → Ram
  | .load origin bytes => m.load origin bytes
  | .image bytes => m.loadImage bytes
  | .byte a v => Bus.write m a v
  | .word a v => Bus.writeWord m a v
  | .push sp v => (Bus.push m sp v).2

/-- The change as it is with every index tried. -/
def change? (m : Ram) : Change → Option Ram
  | .load origin bytes => m.load? origin bytes
  | .image bytes => m.load? 0 bytes
  | .byte a v => m.put? a.toNat v
  | .word a v => m.putWord? a v
  | .push sp v => m.putWord? (sp - 2) v

theorem change?_eq (m : Ram) (c : Change) : m.change? c = some (m.change c) := by
  cases c with
  | load origin bytes => exact m.load?_eq origin bytes
  | image bytes => exact m.load?_eq 0 bytes
  | byte a v => exact m.put?_toNat a v
  | word a v => exact m.putWord?_eq a v
  | push sp v => exact m.putWord?_eq (sp - 2) v

theorem foldlM_change? (m : Ram) (cs : List Change) : cs.foldlM change? m = some (cs.foldl change m) := by
  induction cs generalizing m with
  | nil => rfl
  | cons c cs ih =>
    rw [List.foldlM_cons, change?_eq]
    exact ih (m.change c)

namespace Change

/-- From the origin on, without going round. -/
def spread? (origin : Word) (bytes : List Byte) (a : Word) : Option Byte :=
  if origin.toNat ≤ a.toNat ∧ a.toNat < origin.toNat + bytes.length then bytes[a.toNat - origin.toNat]? else none

/-- The low byte at the address, the high byte at the next one, the next of the last being the first. -/
def halves? (b v a : Word) : Option Byte :=
  if a = b then some v.low else if a = b + 1 then some v.high else none

/-- What the change puts at the address, if it covers it. -/
def puts? (a : Word) : Change → Option Byte
  | .load origin bytes => spread? origin bytes a
  | .image bytes => spread? 0 bytes a
  | .byte b v => if a = b then some v else none
  | .word b v => halves? b v a
  | .push sp v => halves? (sp - 2) v a

def warning? : Change → Option String
  | .image bytes => imageWarning? bytes
  | .load _ _ | .byte _ _ | .word _ _ | .push _ _ => none

theorem isSome_warning? (c : Change) : c.warning?.isSome ↔ ∃ bytes, c = .image bytes ∧ 65536 < bytes.length := by
  cases c with
  | image bytes =>
    simp only [warning?, imageWarning?, image.injEq, exists_eq_left']
    split <;> simp_all
  | load _ _ | byte _ _ | word _ _ | push _ _ => simp [warning?]

end Change

theorem get_load_spread (m : Ram) (origin : Word) (bytes : List Byte) (a : Word) :
    (m.load origin bytes).get a = (Change.spread? origin bytes a).getD (m.get a) := by
  rw [get_load, Change.spread?, List.getD_eq_getElem?_getD]
  by_cases ho : origin.toNat ≤ a.toNat
  · by_cases he : a.toNat < origin.toNat + bytes.length
    · rw [if_pos ho, if_pos ⟨ho, he⟩]
    · rw [if_pos ho, if_neg (fun h => he h.2), List.getElem?_eq_none (by omega)]
  · rw [if_neg ho, if_neg (fun h => ho h.1)]
    rfl

theorem get_writeWord (m : Ram) (b v a : Word) :
    (Bus.writeWord m b v).get a = (Change.halves? b v a).getD (m.get a) := by
  have hne := b.add_one_ne
  rw [stores_get.look_writeWord, Change.halves?]
  grind

theorem get_change (m : Ram) (c : Change) (a : Word) : (m.change c).get a = (c.puts? a).getD (m.get a) := by
  cases c with
  | load origin bytes => exact m.get_load_spread origin bytes a
  | image bytes => exact m.get_load_spread 0 bytes a
  | byte b v =>
    rw [change, write_eq, get_set, Change.puts?]
    grind
  | word b v => exact m.get_writeWord b v a
  | push sp v => exact m.get_writeWord (sp - 2) v a

theorem get_foldl_change (m : Ram) (cs : List Change) (a : Word) :
    (cs.foldl change m).get a = (cs.filterMap (·.puts? a)).getLast?.getD (m.get a) :=
  foldl_last (·.get a) (fun m c => m.get_change c a) m cs

/-- A load is cut where a word goes on, so that only the word reaches the first cell. -/
example :
    let m := [Change.word 0xFFFF 0x1234, .load 0xFFFF [0x56, 0x78]].foldl change empty
    m.get 0xFFFF = 0x56 ∧ m.get 0x0000 = 0x12 := by
  simp only [get_foldl_change]
  decide

end Ram

/-- After any changes of a memory that was empty, each of which finds all its cells, a read finds at every address what
the last change that covers it has put there, and zero if there was none. Only an image that is longer than the memory
is warned of. A word comes back from where it was put, be it half at the end and half at the beginning. -/
theorem Ram.holds_last_put (cs : List Ram.Change) :
    let m := cs.foldl Ram.change Ram.empty
    cs.foldlM Ram.change? Ram.empty = some m ∧
    (∀ a : Word, m.cell? a.toNat = some (Bus.read m a).1 ∧
      Bus.read m a = ((cs.filterMap (·.puts? a)).getLast?.getD 0, m)) ∧
    (∀ c : Ram.Change, c.warning?.isSome ↔ ∃ image, c = .image image ∧ 65536 < image.length) ∧
    ∀ a v, Bus.readWord (m.change (.word a v)) a = (v, m.change (.word a v)) := by
  intro m
  refine ⟨Ram.empty.foldlM_change? cs, fun a => ⟨m.cell?_toNat a, ?_⟩, Ram.Change.isSome_warning?,
    fun a v => Prod.ext (Ram.stores_get.fst_readWord_writeWord m a v) rfl⟩
  have hget : m.get a = (cs.filterMap (·.puts? a)).getLast?.getD (Ram.empty.get a) := Ram.empty.get_foldl_change cs a
  rw [Ram.read_eq, hget, Ram.get_empty]

end Sm83
