import Mathlib.Data.List.Forall2
import Sm83.Bus.Ram
import Sm83.Bus.Traced
import Sm83.Proofs.Anatomy

/-!
The accesses of an instruction to the bus, all of them and in their order: the code, its operand, and then the data.
The data accesses are declared for each instruction by the registers it starts from; a unit that keeps the accesses
made to it is the witness that no other is made, and that none is left out or doubled.
-/

set_option autoImplicit false

namespace Sm83

variable {μ : Type}

/-- An access that is due; a write may be due with its byte. -/
inductive Due where
  | read (address : Word)
  | write (address : Word) (value? : Option Byte)
  deriving DecidableEq, Repr

def Access.Meets : Access → Due → Prop
  | .read a _, .read b => a = b
  | .write a v, .write b v? => a = b ∧ ∀ w ∈ v?, v = w
  | .read _ _, .write _ _ | .write _ _, .read _ => False

namespace Due

/-! Words go low byte first, the high byte at the next address. -/

def readWord (a : Word) : List Due := [.read a, .read (a + 1)]

def writeWord (a v : Word) : List Due := [.write a (some v.low), .write (a + 1) (some v.high)]

end Due

/-! What each instruction is to access. The program counter of the registers stands behind the operand. -/

namespace Place

def reads (r : Registers) : Place → List Due
  | .atHl => [.read r.hl]
  | _ => []

def writes (r : Registers) (v? : Option Byte) : Place → List Due
  | .atHl => [.write r.hl v?]
  | _ => []

end Place

def Bitwise.footprint (r : Registers) : Bitwise → List Due
  | .test _ t => t.reads r
  | .rotate _ t | .reset _ t | .set _ t => t.reads r ++ t.writes r none

def Inherent.footprint (r : Registers) : Inherent → List Due
  | .copy t s => s.reads r ++ t.writes r (s.register?.map r.get)
  | .storeAt x => [.write (r.pair x.pair) (some (r.get .a))]
  | .loadAt x => [.read (r.pair x.pair)]
  | .storeDevice => [.write (deviceAddress (r.get .c)) (some (r.get .a))]
  | .loadDevice => [.read (deviceAddress (r.get .c))]
  | .increment t | .decrement t => t.reads r ++ t.writes r none
  | .alu _ s => s.reads r
  | .push x => Due.writeWord (r.sp - 2) (r.pair x)
  | .pop _ | .ret | .retInterrupt => Due.readWord r.sp
  | .retIf cc => if cc.holds r.flags then Due.readWord r.sp else []
  | .restart _ => Due.writeWord (r.sp - 2) r.pc
  | _ => []

example (r : Registers) : (Inherent.increment .atHl).footprint r = [.read r.hl, .write r.hl none] := rfl

def ByteForm.footprint (r : Registers) (n : Byte) : ByteForm → List Due
  | .set t => t.writes r (some n)
  | .storeDevice => [.write (deviceAddress n) (some (r.get .a))]
  | .loadDevice => [.read (deviceAddress n)]
  | .extended => (Bitwise.ofCode n).footprint r
  | _ => []

def WordForm.footprint (r : Registers) (n : Word) : WordForm → List Due
  | .storeStack => Due.writeWord n r.sp
  | .store => [.write n (some (r.get .a))]
  | .load => [.read n]
  | .call => Due.writeWord (r.sp - 2) r.pc
  | .callIf cc => if cc.holds r.flags then Due.writeWord (r.sp - 2) r.pc else []
  | _ => []

def Instruction.footprint (r : Registers) : Instruction → List Due
  | .hole => []
  | .inherent i => i.footprint r
  | .byte i n => i.footprint r n
  | .word i n => i.footprint r n

def Operand.reads (a : Word) : Operand → List Access
  | .none => []
  | .byte n => [.read a n]
  | .word n => [.read a n.low, .read (a + 1) n.high]

/-- The accesses can be made one after the other from the unit `m`, each read with the byte the unit answers,
and lead to the unit `n`. -/
inductive Replay [Bus μ] : μ → List Access → μ → Prop where
  | nil (m : μ) : Replay m [] m
  | read {m n : μ} {es : List Access} (a : Word) : Replay (Bus.read m a).2 es n →
      Replay m (.read a (Bus.read m a).1 :: es) n
  | write {m n : μ} {es : List Access} (a : Word) (v : Byte) : Replay (Bus.write m a v) es n →
      Replay m (.write a v :: es) n

/-- A view of the bytes in a unit that no read disturbs, and that a write changes at its address only. -/
structure Bus.View [Bus μ] (look : μ → Word → Byte) : Prop where
  read : ∀ (m : μ) (a b : Word), look (Bus.read m a).2 b = look m b
  write : ∀ (m : μ) (a b : Word) (v : Byte), a ≠ b → look (Bus.write m a v) b = look m b

theorem Ram.view_get : Bus.View Ram.get where
  read m a b := rfl
  write m a b v h := by simp [Ram.get_set, h]

namespace Replay

variable [Bus μ]

theorem append {l m n : μ} {es fs : List Access} (h : Replay l es m) (k : Replay m fs n) :
    Replay l (es ++ fs) n := by
  induction h with
  | nil => exact k
  | read a _ ih => exact .read a (ih k)
  | write a v _ ih => exact .write a v (ih k)

theorem frame {m n : μ} {es : List Access} (h : Replay m es n) {look : μ → Word → Byte} (view : Bus.View look)
    {b : Word} (hb : ∀ v, .write b v ∉ es) : look n b = look m b := by
  induction h with
  | nil => rfl
  | read a _ ih =>
    rw [ih fun v hv => hb v (List.mem_cons_of_mem _ hv), view.read]
  | write a v _ ih =>
    have hab : a ≠ b := fun h => hb v (h ▸ List.mem_cons_self)
    rw [ih fun w hw => hb w (List.mem_cons_of_mem _ hw), view.write _ _ _ _ hab]

end Replay

namespace Traced

variable [Bus μ]

structure After (t u : Traced μ) (es : List Access) : Prop where
  accesses : u.accesses.toList = t.accesses.toList ++ es
  replay : Replay t.unit es u.unit

/-- From `t` to `u` just the accesses were made that were due. -/
def Does (t u : Traced μ) (ds : List Due) : Prop := ∃ es, t.After u es ∧ List.Forall₂ Access.Meets es ds

namespace After

variable {t u v : Traced μ}

theorem refl (t : Traced μ) : t.After t [] := ⟨by simp, .nil _⟩

theorem trans {es fs : List Access} (h : t.After u es) (k : u.After v fs) : t.After v (es ++ fs) :=
  ⟨by rw [k.accesses, h.accesses, List.append_assoc], h.replay.append k.replay⟩

theorem read (t : Traced μ) (a : Word) : t.After (Bus.read t a).2 [.read a (Bus.read t a).1] :=
  ⟨by simp, .read a (.nil _)⟩

theorem write (t : Traced μ) (a : Word) (v : Byte) : t.After (Bus.write t a v) [.write a v] :=
  ⟨by simp, .write a v (.nil _)⟩

end After

namespace Does

variable {t u v : Traced μ}

theorem refl (t : Traced μ) : t.Does t [] := ⟨[], .refl t, .nil⟩

theorem trans {ds es : List Due} (h : t.Does u ds) (k : u.Does v es) : t.Does v (ds ++ es) := by
  obtain ⟨as, ha, hd⟩ := h
  obtain ⟨bs, hb, he⟩ := k
  exact ⟨as ++ bs, ha.trans hb, List.rel_append hd he⟩

theorem read (t : Traced μ) (a : Word) : t.Does (Bus.read t a).2 [.read a] :=
  ⟨_, .read t a, .cons rfl .nil⟩

theorem write (t : Traced μ) (a : Word) {v : Byte} {v? : Option Byte} (h : ∀ w ∈ v?, v = w) :
    t.Does (Bus.write t a v) [.write a v?] :=
  ⟨_, .write t a v, .cons ⟨rfl, h⟩ .nil⟩

theorem put (t : Traced μ) (a : Word) (v : Byte) : t.Does (Bus.write t a v) [.write a (some v)] :=
  write t a (by simp)

theorem readWord (t : Traced μ) (a : Word) : t.Does (Bus.readWord t a).2 (Due.readWord a) :=
  (read t a).trans (read _ (a + 1))

theorem writeWord (t : Traced μ) (a w : Word) : t.Does (Bus.writeWord t a w) (Due.writeWord a w) :=
  (put t a w.low).trans (put _ (a + 1) w.high)

end Does

end Traced

namespace Processor

def traced (p : Processor μ) : Processor (Traced μ) := { p with bus := { unit := p.bus } }

def untraced (p : Processor (Traced μ)) : Processor μ := { p with bus := p.bus.unit }

theorem when_untraced (b : Bool) (p q : Processor (Traced μ)) :
    (if b then q.untraced else p.untraced) = (if b then q else p).untraced := by
  cases b <;> rfl

variable [Bus μ]

/-! The accesses of the operations. -/

theorem does_load (p : Processor (Traced μ)) (t : Place) : p.bus.Does (p.load t).2.bus (t.reads p.regs) := by
  cases t with
  | atHl => exact .read _ _
  | _ => exact .refl _

@[simp] theorem regs_load (p : Processor μ) (t : Place) : (p.load t).2.regs = p.regs := by
  cases t <;> rfl

theorem does_store (p : Processor (Traced μ)) (t : Place) {v : Byte} {v? : Option Byte} (h : ∀ w ∈ v?, v = w) :
    p.bus.Does (p.store t v).bus (t.writes p.regs v?) := by
  cases t with
  | atHl => exact .write _ _ h
  | _ => exact .refl _

/-- The address is the one from before, even where the instruction goes on to change HL. -/
theorem does_rewrite (p : Processor (Traced μ)) (t : Place) (v : Byte) {q : Processor (Traced μ)}
    (hb : q.bus = (p.load t).2.bus) (hr : q.regs.hl = p.regs.hl) :
    p.bus.Does (q.store t v).bus (t.reads p.regs ++ t.writes p.regs none) := by
  have hw : t.writes p.regs none = t.writes q.regs none := by cases t <;> simp [Place.writes, hr]
  rw [hw]
  exact (p.does_load t).trans (hb ▸ q.does_store t (by simp))

theorem does_onPlace (p : Processor (Traced μ)) (t : Place) (f : Byte → Flags → Byte × Flags) :
    p.bus.Does (p.onPlace t f).bus (t.reads p.regs ++ t.writes p.regs none) := by
  have h := congrArg Registers.hl (p.regs_load t)
  exact p.does_rewrite t _ rfl h

theorem does_push (p : Processor (Traced μ)) (v : Word) :
    p.bus.Does (p.push v).bus (Due.writeWord (p.regs.sp - 2) v) := .writeWord _ _ _

theorem does_pop (p : Processor (Traced μ)) : p.bus.Does p.pop.2.bus (Due.readWord p.regs.sp) := .readWord _ _

theorem does_when (p : Processor (Traced μ)) {q : Processor (Traced μ)} {b : Bool} {ds : List Due}
    (h : p.bus.Does q.bus ds) : p.bus.Does (if b then q else p).bus (if b then ds else []) := by
  cases b with
  | true => exact h
  | false => exact .refl _

end Processor

/-- A pointer that moves leaves the accumulator, which is stored, as it was. -/
theorem Pointer.accumulator_follow (p : Processor μ) (x : Pointer) :
    (x.follow p).2.regs.get .a = p.regs.get .a := by
  have h (y : Pair) (v : Word) (hy : y ≠ .af) : (p.regs.setPair y v).get .a = p.regs.get .a := by
    cases y with
    | af => exact absurd rfl hy
    | _ => rfl
  exact h _ _ (by cases x <;> decide)

variable [Bus μ]

/-! The accesses of each instruction are the declared ones. -/

theorem Bitwise.does (p : Processor (Traced μ)) (i : Bitwise) :
    p.bus.Does (i.perform p).bus (i.footprint p.regs) := by
  cases i with simp only [perform]
  | rotate r t => exact p.does_onPlace t _
  | test n t => exact p.does_load t
  | reset n t | set n t => exact p.does_rewrite t _ rfl (congrArg Registers.hl (p.regs_load t))

theorem Inherent.does (p : Processor (Traced μ)) (i : Inherent) :
    p.bus.Does (i.perform p).bus (i.footprint p.regs) := by
  cases i with simp only [perform]
  | copy t s =>
    have hv : ∀ w ∈ s.register?.map p.regs.get, (p.load s).1 = w := by
      cases s <;> simp [Place.register?, Processor.load]
    have h := (p.load s).2.does_store t hv
    rw [p.regs_load s] at h
    exact (p.does_load s).trans h
  | storeAt x =>
    have ha : (x.follow p).2.regs.get .a = p.regs.get .a := x.accumulator_follow p
    rw [footprint, ← ha]
    exact .put _ _ _
  | loadAt x => exact .read _ _
  | storeDevice => exact .put _ _ _
  | loadDevice => exact .read _ _
  | increment t | decrement t => exact p.does_onPlace t _
  | alu op s => exact p.does_load s
  | push x => exact p.does_push _
  | pop x | ret => exact p.does_pop
  | retInterrupt => exact Processor.does_pop { p with interrupts := p.interrupts.enable }
  | retIf cc => exact p.does_when p.does_pop
  | restart n => exact p.does_push _
  | _ => exact .refl _

theorem ByteForm.does (p : Processor (Traced μ)) (i : ByteForm) (n : Byte) :
    p.bus.Does (i.perform p n).bus (i.footprint p.regs n) := by
  cases i with simp only [perform]
  | set t => exact p.does_store t (by simp)
  | storeDevice => exact .put _ _ _
  | loadDevice => exact .read _ _
  | extended => exact (Bitwise.ofCode n).does p
  | jumpIf cc => split <;> exact .refl _
  | _ => exact .refl _

theorem WordForm.does (p : Processor (Traced μ)) (i : WordForm) (n : Word) :
    p.bus.Does (i.perform p n).bus (i.footprint p.regs n) := by
  cases i with simp only [perform]
  | storeStack => exact .writeWord _ _ _
  | store => exact .put _ _ _
  | load => exact .read _ _
  | jumpIf cc => split <;> exact .refl _
  | call => exact p.does_push _
  | callIf cc => exact p.does_when (p.does_push _)
  | _ => exact .refl _

theorem Instruction.does (p : Processor (Traced μ)) (i : Instruction) :
    p.bus.Does (i.perform p).bus (i.footprint p.regs) := by
  cases i with
  | hole => exact .refl _
  | inherent i => exact i.does p
  | byte i n => exact i.does p n
  | word i n => exact i.does p n

namespace Processor

theorem load_untraced (p : Processor (Traced μ)) (t : Place) :
    p.untraced.load t = ((p.load t).1, (p.load t).2.untraced) := by
  cases t <;> rfl

theorem store_untraced (p : Processor (Traced μ)) (t : Place) (v : Byte) :
    p.untraced.store t v = (p.store t v).untraced := by
  cases t <;> rfl

theorem onPlace_untraced (p : Processor (Traced μ)) (t : Place) (f : Byte → Flags → Byte × Flags) :
    p.untraced.onPlace t f = (p.onPlace t f).untraced := by
  cases t <;> rfl

end Processor

theorem Bitwise.perform_untraced (p : Processor (Traced μ)) (i : Bitwise) :
    i.perform p.untraced = (i.perform p).untraced := by
  cases i with simp only [perform, p.load_untraced]
  | rotate r t => exact p.onPlace_untraced t _
  | test n t => rfl
  | reset n t | set n t => exact Processor.store_untraced _ t _

theorem Inherent.perform_untraced (p : Processor (Traced μ)) (i : Inherent) :
    i.perform p.untraced = (i.perform p).untraced := by
  cases i with simp only [perform, p.load_untraced]
  | copy t s => exact Processor.store_untraced _ t _
  | increment t | decrement t => exact p.onPlace_untraced t _
  | retIf cc => exact Processor.when_untraced _ p p.ret
  | _ => rfl

theorem ByteForm.perform_untraced (p : Processor (Traced μ)) (i : ByteForm) (n : Byte) :
    i.perform p.untraced n = (i.perform p n).untraced := by
  cases i with simp only [perform]
  | set t => exact p.store_untraced t n
  | jumpIf cc => exact Processor.when_untraced _ p (p.jumpBy n)
  | extended => exact (Bitwise.ofCode n).perform_untraced p
  | _ => rfl

theorem WordForm.perform_untraced (p : Processor (Traced μ)) (i : WordForm) (n : Word) :
    i.perform p.untraced n = (i.perform p n).untraced := by
  cases i with simp only [perform]
  | jumpIf cc => exact Processor.when_untraced _ p (p.jump n)
  | callIf cc => exact Processor.when_untraced _ p (p.call n)
  | _ => rfl

theorem Instruction.perform_untraced (p : Processor (Traced μ)) (i : Instruction) :
    i.perform p.untraced = (i.perform p).untraced := by
  cases i with
  | hole => rfl
  | inherent i => exact i.perform_untraced p
  | byte i n => exact i.perform_untraced p n
  | word i n => exact i.perform_untraced p n

namespace Processor

/-- The registers as the instruction finds them: the program counter stands behind its operand. -/
def entering (p : Processor μ) (f : Form) : Registers :=
  { p.regs with pc := p.regs.pc + 1 + UInt16.ofNat f.width }

end Processor

end Sm83
