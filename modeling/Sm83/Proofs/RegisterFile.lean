import Sm83.Proofs.Halves
import Sm83.Proofs.Histories
import Sm83.Proofs.Storage

/-!
The register file as cells of one byte each. A register is written by its name, by its number among the places of a
byte or as half of a pair; whatever writes have been made, it holds the last byte that was put there, and no write to
another cell shows in it. The place behind HL is not a cell of its own: it is the cell of the address that H and L make
up at the moment.
-/

set_option autoImplicit false

namespace Sm83

variable {μ : Type}

/-! What is written, and where it goes. -/

namespace Reg8

/-- What a register keeps of a byte: F has no lower nibble. -/
def kept (x : Reg8) (v : Byte) : Byte := if x = .f then v &&& 0xF0 else v

/-- The register of a number; number 6 is the byte behind HL. -/
def ofIndex? : Fin 8 → Option Reg8
  | 0 => some .b
  | 1 => some .c
  | 2 => some .d
  | 3 => some .e
  | 4 => some .h
  | 5 => some .l
  | 6 => none
  | 7 => some .a

end Reg8

/-- The registers that hold the high and the low byte of a pair. The stack pointer is not made of registers. -/
def Pair.halves? : Pair → Option (Reg8 × Reg8)
  | .bc => some (.b, .c)
  | .de => some (.d, .e)
  | .hl => some (.h, .l)
  | .sp => none
  | .af => some (.a, .f)

/-- A write by the name of a register, by the number of a place, or of a pair as a whole. -/
inductive Write where
  | register (x : Reg8) (v : Byte)
  | index (i : Fin 8) (v : Byte)
  | pair (y : Pair) (v : Word)
  deriving DecidableEq, Repr

namespace Write

def puts? (x : Reg8) : Write → Option Byte
  | .register y v => if y = x then some (x.kept v) else none
  | .index i v => if Reg8.ofIndex? i = some x then some (x.kept v) else none
  | .pair y v => y.halves?.bind fun h =>
    if h.1 = x then some (x.kept v.high) else if h.2 = x then some (x.kept v.low) else none

/-- The byte the write puts on the bus, and the address it goes to while HL is `hl`. -/
def poke? (hl : Word) : Write → Option (Word × Byte)
  | .index i v => if Reg8.ofIndex? i = none then some (hl, v) else none
  | .register _ _ | .pair _ _ => none

def stack? : Write → Option Word
  | .pair .sp v => some v
  | .register _ _ | .index _ _ | .pair _ _ => none

def Steers (w : Write) : Prop := (w.puts? .h).isSome ∨ (w.puts? .l).isSome

namespace Steers

variable {w : Write}

theorem register {y : Reg8} {v : Byte} (h : (register y v).Steers) : y = .h ∨ y = .l := by
  simpa [Steers, Write.puts?] using h

theorem index {i : Fin 8} {v : Byte} (h : (index i v).Steers) :
    Reg8.ofIndex? i = some .h ∨ Reg8.ofIndex? i = some .l := by
  simpa [Steers, Write.puts?] using h

theorem pair {y : Pair} {v : Word} (h : (pair y v).Steers) : y = .hl := by
  cases y with
  | hl => rfl
  | _ => simp [Steers, Write.puts?, Pair.halves?] at h

theorem puts? (h : w.Steers) {x : Reg8} (hh : x ≠ .h) (hl : x ≠ .l) : w.puts? x = none := by
  cases w with
  | register y v => obtain rfl | rfl := h.register <;> simp [Write.puts?, hh.symm, hl.symm]
  | index i v => obtain hi | hi := h.index <;> simp [Write.puts?, hi, hh.symm, hl.symm]
  | pair y v => obtain rfl := h.pair; simp [Write.puts?, Pair.halves?, hh.symm, hl.symm]

theorem poke? (h : w.Steers) (hl : Word) : w.poke? hl = none := by
  cases w with
  | register y v | pair y v => rfl
  | index i v => obtain hi | hi := h.index <;> simp [Write.poke?, hi]

theorem stack? (h : w.Steers) : w.stack? = none := by
  cases w with
  | register y v | index i v => rfl
  | pair y v => obtain rfl := h.pair; rfl

end Steers

end Write

/-! A pair as its halves. -/

namespace Registers

theorem toNat_pair (r : Registers) (y : Pair) :
    ∀ h ∈ y.halves?, (r.pair y).toNat = 256 * (r.get h.1).toNat + (r.get h.2).toNat := by
  cases y with
  | sp => exact fun _ h => nomatch h
  | bc => rintro _ ⟨⟩; exact r.bc.toNat_halves
  | de => rintro _ ⟨⟩; exact r.de.toNat_halves
  | hl => rintro _ ⟨⟩; exact r.hl.toNat_halves
  | af => rintro _ ⟨⟩; exact r.af.toNat_halves

theorem get_set (r : Registers) (y x : Reg8) (v : Byte) :
    (r.set y v).get x = ((Write.register y v).puts? x).getD (r.get x) := by
  by_cases h : y = x
  · subst h
    simp [get_set_self, Write.puts?, Reg8.kept]
  · simp [r.get_set_of_ne v (Ne.symm h), Write.puts?, h]

theorem get_setPair (r : Registers) (y : Pair) (v : Word) (x : Reg8) :
    (r.setPair y v).get x = ((Write.pair y v).puts? x).getD (r.get x) := by
  cases y with
  | af => cases x <;> simp [setPair, get, Write.puts?, Pair.halves?, Reg8.kept, v.high_and_mask, v.low_and_mask]
  | _ => cases x <;> rfl

end Registers

namespace Place

theorem register?_ofIndex (i : Fin 8) : (ofIndex i).register? = Reg8.ofIndex? i := by
  revert i
  decide

end Place

def Bus.poke [Bus μ] (m : μ) (k : Word × Byte) : μ := Bus.write m k.1 k.2

namespace Processor

variable [Bus μ]

def write (p : Processor μ) : Write → Processor μ
  | .register x v => { p with regs := p.regs.set x v }
  | .index i v => p.store (Place.ofIndex i) v
  | .pair y v => p.setPair y v

/-- The bytes that writes put on the bus, each with the value HL has at its moment. -/
def pokes (p : Processor μ) : List Write → List (Word × Byte)
  | [] => []
  | w :: ws => (w.poke? p.regs.hl).toList ++ (p.write w).pokes ws

theorem load_ofIndex (p : Processor μ) {i : Fin 8} {x : Reg8} (h : Reg8.ofIndex? i = some x) :
    p.load (Place.ofIndex i) = (p.regs.get x, p) := by
  simp only [load, Place.register?_ofIndex, h]

theorem load_six (p : Processor μ) :
    p.load (Place.ofIndex 6) = p.readByte (.ofBytes (p.regs.get .h) (p.regs.get .l)) :=
  congrArg p.readByte p.regs.hl.ofBytes_high_low.symm

theorem write_six (p : Processor μ) (v : Byte) :
    p.write (.index 6 v) = p.writeByte (.ofBytes (p.regs.get .h) (p.regs.get .l)) v :=
  congrArg (p.writeByte · v) p.regs.hl.ofBytes_high_low.symm

theorem write_index (p : Processor μ) (i : Fin 8) (v : Byte) :
    p.write (.index i v) = (Reg8.ofIndex? i).elim (p.writeByte p.regs.hl v) fun x => p.write (.register x v) := by
  simp only [write, store, Place.register?_ofIndex]
  cases Reg8.ofIndex? i <;> rfl

/-! One write, as it shows in each of the cells. -/

theorem get_write (p : Processor μ) (w : Write) (x : Reg8) :
    (p.write w).regs.get x = (w.puts? x).getD (p.regs.get x) := by
  cases w with
  | register y v => exact p.regs.get_set y x v
  | pair y v => exact p.regs.get_setPair y v x
  | index i v =>
    rw [write_index, Write.puts?]
    cases Reg8.ofIndex? i with
    | none => rfl
    | some y =>
      simp only [Option.some.injEq]
      exact p.regs.get_set y x v

theorem pc_write (p : Processor μ) (w : Write) : (p.write w).regs.pc = p.regs.pc := by
  cases w with
  | register x v => exact p.regs.pc_set x v
  | pair y v => exact p.regs.pc_setPair y v
  | index i v =>
    rw [write_index]
    cases Reg8.ofIndex? i with
    | none => rfl
    | some x => exact p.regs.pc_set x v

theorem sp_write (p : Processor μ) (w : Write) : (p.write w).regs.sp = w.stack?.getD p.regs.sp := by
  cases w with
  | register x v => exact p.regs.sp_set x v
  | pair y v => cases y <;> rfl
  | index i v =>
    rw [write_index]
    cases Reg8.ofIndex? i with
    | none => rfl
    | some x => exact p.regs.sp_set x v

theorem bus_write (p : Processor μ) (w : Write) :
    (p.write w).bus = (w.poke? p.regs.hl).toList.foldl Bus.poke p.bus := by
  cases w with
  | register x v | pair y v => rfl
  | index i v =>
    rw [write_index, Write.poke?]
    cases Reg8.ofIndex? i <;> rfl

theorem bus_foldl_write (p : Processor μ) (ws : List Write) :
    (ws.foldl write p).bus = (p.pokes ws).foldl Bus.poke p.bus := by
  induction ws generalizing p with
  | nil => rfl
  | cons w ws ih => rw [List.foldl_cons, ih, bus_write, pokes, List.foldl_append]

/-- What is found in `q` when the writes have been made one after the other, beginning with `p`. -/
structure Written (p : Processor μ) (ws : List Write) (q : Processor μ) : Prop where
  register : ∀ x, q.regs.get x = (ws.filterMap (·.puts? x)).getLast?.getD (p.regs.get x)
  index : ∀ i, ∀ x ∈ Reg8.ofIndex? i, q.load (Place.ofIndex i) = (q.regs.get x, q)
  pair : ∀ y, ∀ h ∈ y.halves?, (q.regs.pair y).toNat = 256 * (q.regs.get h.1).toNat + (q.regs.get h.2).toNat
  pc : q.regs.pc = p.regs.pc
  sp : q.regs.sp = (ws.filterMap Write.stack?).getLast?.getD p.regs.sp
  pointed :
    let a := Word.ofBytes (q.regs.get .h) (q.regs.get .l)
    q.load (Place.ofIndex 6) = q.readByte a ∧ ∀ v, q.write (.index 6 v) = q.writeByte a v
  bus : q.bus = (p.pokes ws).foldl Bus.poke p.bus
  stored : ∀ look : μ → Word → Byte, Bus.Stores look → ∀ a, (Bus.read q.bus a).1 =
    ((p.pokes ws).filterMap fun k => if k.1 = a then some k.2 else none).getLast?.getD (Bus.read p.bus a).1
  steered : ∀ w : Write, w.Steers →
    let s := q.write w
    let a := Word.ofBytes ((w.puts? .h).getD (q.regs.get .h)) ((w.puts? .l).getD (q.regs.get .l))
    s.load (Place.ofIndex 6) = s.readByte a ∧ (∀ v, s.write (.index 6 v) = s.writeByte a v) ∧ s.bus = q.bus ∧
      s.regs.sp = q.regs.sp ∧ ∀ x, x ≠ .h → x ≠ .l → s.regs.get x = q.regs.get x

/-- The register file is a row of cells, whatever writes have been made to it: each holds what was last put into it
under any of its names, and the place behind HL follows H and L. -/
theorem independent_cells (p : Processor μ) (ws : List Write) : p.Written ws (ws.foldl write p) where
  register x := foldl_last (·.regs.get x) (fun q w => q.get_write w x) p ws
  index i x h := load_ofIndex _ h
  pair := Registers.toNat_pair _
  pc := foldl_same (·.regs.pc) pc_write p ws
  sp := foldl_last (·.regs.sp) sp_write p ws
  pointed := ⟨load_six _, write_six _⟩
  bus := p.bus_foldl_write ws
  stored look store a := by
    simp only [store.value, p.bus_foldl_write ws]
    refine foldl_last (look · a) (fun m k => ?_) p.bus (p.pokes ws)
    rw [Bus.poke, store.look_write]
    split <;> rfl
  steered w h := by
    intro s a
    have ha : a = .ofBytes (s.regs.get .h) (s.regs.get .l) := by rw [get_write, get_write]
    refine ⟨ha ▸ s.load_six, fun v => ha ▸ s.write_six v, ?_, ?_, fun x hh hl => ?_⟩
    · rw [bus_write, h.poke?]
      rfl
    · rw [sp_write, h.stack?, Option.getD_none]
    · rw [get_write, h.puts? hh hl, Option.getD_none]

/-- Three writes behind HL, which is moved between them: once by L, once by the number of H. -/
theorem independent_cells_redirected :
    let p : Processor Ram := { bus := .empty }
    let ws : List Write := [.index 6 0x11, .register .l 0x05, .index 6 0x22, .index 4 0xC0, .index 6 0x33,
      .pair .af 0xABCD]
    let q := ws.foldl write p
    Bus.Stores Ram.get ∧ (Write.pair .hl 0x0105).Steers ∧ q.regs.get .a = 0xAB ∧ q.regs.get .f = 0xC0 ∧
      (q.regs.pair .hl).toNat = 0xC005 ∧ q.regs.sp = 0xFFFE ∧ (Bus.read q.bus 0x014D).1 = 0x11 ∧
      (Bus.read q.bus 0x0105).1 = 0x22 ∧ (q.load (Place.ofIndex 6)).1 = 0x33 ∧
      ((q.write (.pair .hl 0x0105)).load (Place.ofIndex 6)).1 = 0x22 := by
  intro p ws q
  have hs : (Write.pair .hl 0x0105).Steers := .inl rfl
  have hq : p.Written ws q := independent_cells p ws
  have hh : q.regs.get .h = 0xC0 := (hq.register .h).trans (by decide)
  have hl : q.regs.get .l = 0x05 := (hq.register .l).trans (by decide)
  have hk : p.pokes ws = [(0x014D, 0x11), (0x0105, 0x22), (0xC005, 0x33)] := by decide
  have hr (a : Word) : (Bus.read q.bus a).1 = _ := (hq.stored Ram.get Ram.stores_get a).trans (by rw [hk])
  refine ⟨Ram.stores_get, hs, (hq.register .a).trans (by decide), (hq.register .f).trans (by decide), ?_,
    hq.sp.trans (by decide), ?_, ?_, ?_, ?_⟩
  · rw [hq.pair .hl (.h, .l) rfl, hh, hl]
    decide
  · exact hr 0x014D
  · exact hr 0x0105
  · rw [hq.pointed.1, hh, hl]
    exact hr 0xC005
  · obtain ⟨ha, -⟩ := hq.steered _ hs
    rw [ha]
    exact hr 0x0105

end Processor

end Sm83
