import Sm83.Bus.Ram
import Sm83.Processor.Step

/-!
The instruction set read off the bits of its codes and told on numbers. A code falls into the fields x, y and z of
two, three and three bits, which number blocks, places, pairs, conditions and operations. What becomes of a byte, a
word or a flag is worked out from the values of six words and of the cells, apart from the functions that the
instructions are made of.
-/

set_option autoImplicit false

namespace Sm83

/-- Bits 7-6, bits 5-3 and bits 2-0 of a code. -/
structure Fields where
  x : Fin 4
  y : Fin 8
  z : Fin 8
  deriving DecidableEq, Repr

namespace Fields

theorem x_lt (code : Byte) : code.toNat / 64 < 4 := by
  have h := code.toNat_lt
  omega

theorem y_lt (code : Byte) : code.toNat / 8 % 8 < 8 := by omega

theorem z_lt (code : Byte) : code.toNat % 8 < 8 := by omega

def ofCode (code : Byte) : Fields where
  x := ⟨code.toNat / 64, x_lt code⟩
  y := ⟨code.toNat / 8 % 8, y_lt code⟩
  z := ⟨code.toNat % 8, z_lt code⟩

/-- The two upper bits of y; the bit below them is `y % 2`. -/
def p (y : Fin 8) : Fin 4 := ⟨y / 2, Nat.div_lt_of_lt_mul y.isLt⟩

/-- The two lower bits of y, which number a condition. -/
def c (y : Fin 8) : Fin 4 := ⟨y % 4, Nat.mod_lt _ (by decide)⟩

def holes : List Byte := [0xD3, 0xDB, 0xDD, 0xE3, 0xE4, 0xEB, 0xEC, 0xED, 0xF4, 0xFC, 0xFD]

/-! Words by their halves, and the flags by the four upper bits of F. -/

def upper (w : Word) : Byte := .ofNat (w.toNat / 256)

def lower (w : Word) : Byte := .ofNat (w.toNat % 256)

def join (h l : Byte) : Word := .ofNat (256 * h.toNat + l.toNat)

/-- The number of a byte in two's complement. -/
def signed (n : Byte) : Int := if n.toNat < 128 then n.toNat else n.toNat - 256

def flags (s : Processor Ram) : Flags :=
  let n := s.regs.af.toNat
  { zero := n / 128 % 2 = 1
    subtract := n / 64 % 2 = 1
    halfCarry := n / 32 % 2 = 1
    carry := n / 16 % 2 = 1 }

def pack (f : Flags) : Byte :=
  .ofNat (128 * f.zero.toNat + 64 * f.subtract.toNat + 32 * f.halfCarry.toNat + 16 * f.carry.toNat)

def putFlags (s : Processor Ram) (f : Flags) : Processor Ram :=
  { s with regs := { s.regs with af := join (upper s.regs.af) (pack f) } }

/-- NZ, Z, NC and C. -/
def holds (s : Processor Ram) (y : Fin 8) : Bool :=
  match c y with
  | 0 => !(flags s).zero
  | 1 => (flags s).zero
  | 2 => !(flags s).carry
  | 3 => (flags s).carry

/-! Places and pairs by their numbers. -/

def read (s : Processor Ram) : Fin 8 → Byte
  | 0 => upper s.regs.bc
  | 1 => lower s.regs.bc
  | 2 => upper s.regs.de
  | 3 => lower s.regs.de
  | 4 => upper s.regs.hl
  | 5 => lower s.regs.hl
  | 6 => s.bus.get s.regs.hl
  | 7 => upper s.regs.af

def write (s : Processor Ram) (v : Byte) : Fin 8 → Processor Ram
  | 0 => { s with regs := { s.regs with bc := join v (lower s.regs.bc) } }
  | 1 => { s with regs := { s.regs with bc := join (upper s.regs.bc) v } }
  | 2 => { s with regs := { s.regs with de := join v (lower s.regs.de) } }
  | 3 => { s with regs := { s.regs with de := join (upper s.regs.de) v } }
  | 4 => { s with regs := { s.regs with hl := join v (lower s.regs.hl) } }
  | 5 => { s with regs := { s.regs with hl := join (upper s.regs.hl) v } }
  | 6 => { s with bus := s.bus.set s.regs.hl v }
  | 7 => { s with regs := { s.regs with af := join v (lower s.regs.af) } }

def readPair (s : Processor Ram) : Fin 4 → Word
  | 0 => s.regs.bc
  | 1 => s.regs.de
  | 2 => s.regs.hl
  | 3 => s.regs.sp

def writePair (s : Processor Ram) (v : Word) : Fin 4 → Processor Ram
  | 0 => { s with regs := { s.regs with bc := v } }
  | 1 => { s with regs := { s.regs with de := v } }
  | 2 => { s with regs := { s.regs with hl := v } }
  | 3 => { s with regs := { s.regs with sp := v } }

/-- On the stack AF takes the number of SP. -/
def readStacked (s : Processor Ram) : Fin 4 → Word
  | 0 => s.regs.bc
  | 1 => s.regs.de
  | 2 => s.regs.hl
  | 3 => s.regs.af

/-- The four lower bits of F stay clear. -/
def writeStacked (s : Processor Ram) (v : Word) : Fin 4 → Processor Ram
  | 0 => { s with regs := { s.regs with bc := v } }
  | 1 => { s with regs := { s.regs with de := v } }
  | 2 => { s with regs := { s.regs with hl := v } }
  | 3 => { s with regs := { s.regs with af := .ofNat (v.toNat / 16 * 16) } }

/-! Operations on bytes and words, with the flags they leave. -/

def sum (a b : Byte) (carry : Nat) : Byte × Flags :=
  let n := a.toNat + b.toNat + carry
  (.ofNat n,
    { zero := n % 256 = 0
      subtract := false
      halfCarry := 16 ≤ a.toNat % 16 + b.toNat % 16 + carry
      carry := 256 ≤ n })

def difference (a b : Byte) (borrow : Nat) : Byte × Flags :=
  let n : Int := a.toNat - b.toNat - borrow
  (.ofInt n,
    { zero := n % 256 = 0
      subtract := true
      halfCarry := (a.toNat % 16 : Int) - (b.toNat % 16 : Int) - borrow < 0
      carry := n < 0 })

def logic (n : Byte) (halfCarry : Bool) : Byte × Flags :=
  (n, { zero := n.toNat = 0, subtract := false, halfCarry, carry := false })

/-- ADD, ADC, SUB, SBC, AND, XOR, OR and CP on the accumulator `a`. -/
def alu (y : Fin 8) (a b : Byte) (f : Flags) : Byte × Flags :=
  match y with
  | 0 => sum a b 0
  | 1 => sum a b f.carry.toNat
  | 2 => difference a b 0
  | 3 => difference a b f.carry.toNat
  | 4 => logic (a &&& b) true
  | 5 => logic (a ^^^ b) false
  | 6 => logic (a ||| b) false
  | 7 => (a, (difference a b 0).2)

def increment (v : Byte) (f : Flags) : Byte × Flags :=
  (.ofNat (v.toNat + 1),
    { zero := v.toNat = 255, subtract := false, halfCarry := v.toNat % 16 = 15, carry := f.carry })

def decrement (v : Byte) (f : Flags) : Byte × Flags :=
  (.ofInt (v.toNat - 1),
    { zero := v.toNat = 1, subtract := true, halfCarry := v.toNat % 16 = 0, carry := f.carry })

/-- After a subtraction the flags alone tell which digits were borrowed for. -/
def adjust (a : Byte) (f : Flags) : Byte × Flags :=
  let low := f.halfCarry || !f.subtract && 9 < a.toNat % 16
  let high := f.carry || !f.subtract && 0x99 < a.toNat
  let k := 6 * low.toNat + 96 * high.toNat
  let n : Int := if f.subtract then a.toNat - k else a.toNat + k
  (.ofInt n, { zero := n % 256 = 0, subtract := f.subtract, halfCarry := false, carry := high })

def complement (a : Byte) (f : Flags) : Byte × Flags :=
  (.ofNat (255 - a.toNat), { zero := f.zero, subtract := true, halfCarry := true, carry := f.carry })

/-- RLC, RRC, RL, RR, SLA, SRA, SWAP and SRL: the number that comes of `v` and the bit that leaves it. -/
def turn (y : Fin 8) (v carry : Nat) : Nat × Nat :=
  match y with
  | 0 => (2 * v % 256 + v / 128, v / 128)
  | 1 => (v / 2 + 128 * (v % 2), v % 2)
  | 2 => (2 * v % 256 + carry, v / 128)
  | 3 => (v / 2 + 128 * carry, v % 2)
  | 4 => (2 * v % 256, v / 128)
  | 5 => (v / 2 + 128 * (v / 128), v % 2)
  | 6 => (16 * (v % 16) + v / 16, 0)
  | 7 => (v / 2, v % 2)

def rotate (y : Fin 8) (v : Byte) (f : Flags) : Byte × Flags :=
  let r := turn y v.toNat f.carry.toNat
  (.ofNat r.1, { zero := r.1 = 0, subtract := false, halfCarry := false, carry := r.2 = 1 })

def rotateShort (y : Fin 8) (v : Byte) (f : Flags) : Byte × Flags :=
  let r := turn y v.toNat f.carry.toNat
  (.ofNat r.1, { zero := false, subtract := false, halfCarry := false, carry := r.2 = 1 })

def weight : Fin 8 → Nat
  | 0 => 1
  | 1 => 2
  | 2 => 4
  | 3 => 8
  | 4 => 16
  | 5 => 32
  | 6 => 64
  | 7 => 128

def bitOf (v : Byte) (y : Fin 8) : Nat := v.toNat / weight y % 2

def testBit (v : Byte) (y : Fin 8) (f : Flags) : Flags :=
  { zero := bitOf v y = 0, subtract := false, halfCarry := true, carry := f.carry }

def clearBit (v : Byte) (y : Fin 8) : Byte := .ofNat (v.toNat - weight y * bitOf v y)

def setBit (v : Byte) (y : Fin 8) : Byte := .ofNat (v.toNat + weight y * (1 - bitOf v y))

def addWord (a b : Word) (f : Flags) : Word × Flags :=
  (.ofNat (a.toNat + b.toNat),
    { zero := f.zero
      subtract := false
      halfCarry := 4096 ≤ a.toNat % 4096 + b.toNat % 4096
      carry := 65536 ≤ a.toNat + b.toNat })

/-- The carries are those of the unsigned byte into the low half. -/
def addSigned (a : Word) (n : Byte) : Word × Flags :=
  (.ofInt (a.toNat + signed n),
    { zero := false
      subtract := false
      halfCarry := 16 ≤ a.toNat % 16 + n.toNat % 16
      carry := 256 ≤ a.toNat % 256 + n.toNat })

/-! What the instructions are made of. -/

def wordAt (m : Ram) (a : Word) : Word := join (m.get (a + 1)) (m.get a)

def putWord (m : Ram) (a v : Word) : Ram := (m.set a (lower v)).set (a + 1) (upper v)

def accumulate (s : Processor Ram) (f : Byte → Flags → Byte × Flags) : Processor Ram :=
  let r := f (upper s.regs.af) (flags s)
  { s with regs := { s.regs with af := join r.1 (pack r.2) } }

def modify (s : Processor Ram) (i : Fin 8) (f : Byte → Flags → Byte × Flags) : Processor Ram :=
  let r := f (read s i) (flags s)
  write (putFlags s r.2) r.1 i

def go (s : Processor Ram) (a : Word) : Processor Ram := { s with regs := { s.regs with pc := a } }

def goBy (s : Processor Ram) (n : Byte) : Processor Ram := go s (.ofInt (s.regs.pc.toNat + signed n))

def push (s : Processor Ram) (v : Word) : Processor Ram :=
  { s with
    bus := putWord s.bus (s.regs.sp - 2) v
    regs := { s.regs with sp := s.regs.sp - 2 } }

def call (s : Processor Ram) (a : Word) : Processor Ram := go (push s s.regs.pc) a

def drop (s : Processor Ram) : Processor Ram := { s with regs := { s.regs with sp := s.regs.sp + 2 } }

def ret (s : Processor Ram) : Processor Ram := go (drop s) (wordAt s.bus s.regs.sp)

def enable (s : Processor Ram) (on : Bool) : Processor Ram :=
  { s with interrupts := { s.interrupts with masterEnable := on } }

def device (n : Byte) : Word := 0xFF00 + n.toUInt16

def putCell (s : Processor Ram) (a : Word) : Processor Ram :=
  { s with bus := s.bus.set a (upper s.regs.af) }

def takeCell (s : Processor Ram) (a : Word) : Processor Ram :=
  { s with regs := { s.regs with af := join (s.bus.get a) (lower s.regs.af) } }

def putHl (s : Processor Ram) (v : Word) : Processor Ram := { s with regs := { s.regs with hl := v } }

def putSp (s : Processor Ram) (v : Word) : Processor Ram := { s with regs := { s.regs with sp := v } }

def point (s : Processor Ram) : Fin 4 → Word × Processor Ram
  | 0 => (s.regs.bc, s)
  | 1 => (s.regs.de, s)
  | 2 => (s.regs.hl, putHl s (s.regs.hl + 1))
  | 3 => (s.regs.hl, putHl s (s.regs.hl - 1))

def extended (n : Byte) (s : Processor Ram) : Processor Ram :=
  let f := ofCode n
  match f.x with
  | 0 => modify s f.z (rotate f.y)
  | 1 => putFlags s (testBit (read s f.z) f.y (flags s))
  | 2 => write s (clearBit (read s f.z) f.y) f.z
  | 3 => write s (setBit (read s f.z) f.y) f.z

inductive Action where
  | plain (f : Processor Ram → Processor Ram)
  | byte (f : Byte → Processor Ram → Processor Ram)
  | word (f : Word → Processor Ram → Processor Ram)

def Action.width : Action → Word
  | .plain _ => 0
  | .byte _ => 1
  | .word _ => 2

def first (y : Fin 8) : Fin 8 → Action
  | 0 => match y with
    | 0 => .plain id
    | 1 => .word fun n s => { s with bus := putWord s.bus n s.regs.sp }
    | 2 => .byte fun _ s => s
    | 3 => .byte fun n s => goBy s n
    | _ => .byte fun n s => if holds s y then goBy s n else s
  | 1 =>
    if y.val % 2 = 0 then .word fun n s => writePair s n (p y)
    else .plain fun s =>
      let r := addWord s.regs.hl (readPair s (p y)) (flags s)
      putFlags (putHl s r.1) r.2
  | 2 =>
    if y.val % 2 = 0 then .plain fun s => putCell (point s (p y)).2 (point s (p y)).1
    else .plain fun s => takeCell (point s (p y)).2 (point s (p y)).1
  | 3 =>
    if y.val % 2 = 0 then .plain fun s => writePair s (readPair s (p y) + 1) (p y)
    else .plain fun s => writePair s (readPair s (p y) - 1) (p y)
  | 4 => .plain fun s => modify s y increment
  | 5 => .plain fun s => modify s y decrement
  | 6 => .byte fun n s => write s n y
  | 7 => match y with
    | 4 => .plain fun s => accumulate s adjust
    | 5 => .plain fun s => accumulate s complement
    | 6 => .plain fun s =>
      putFlags s { zero := (flags s).zero, subtract := false, halfCarry := false, carry := true }
    | 7 => .plain fun s =>
      putFlags s { zero := (flags s).zero, subtract := false, halfCarry := false, carry := !(flags s).carry }
    | _ => .plain fun s => accumulate s (rotateShort y)

/-- The block of the loads between places; the one from the memory to itself does nothing. -/
def second (y z : Fin 8) : Action :=
  .plain fun s => if y.val = 6 ∧ z.val = 6 then s else write s (read s z) y

def third (y z : Fin 8) : Action := .plain fun s => accumulate s fun a f => alu y a (read s z) f

/-- What stands here for a hole is never done. -/
def fourth (y : Fin 8) : Fin 8 → Action
  | 0 => match y with
    | 4 => .byte fun n s => putCell s (device n)
    | 5 => .byte fun n s => putFlags (putSp s (addSigned s.regs.sp n).1) (addSigned s.regs.sp n).2
    | 6 => .byte fun n s => takeCell s (device n)
    | 7 => .byte fun n s => putFlags (putHl s (addSigned s.regs.sp n).1) (addSigned s.regs.sp n).2
    | _ => .plain fun s => if holds s y then ret s else s
  | 1 => match y with
    | 1 => .plain ret
    | 3 => .plain fun s => ret (enable s true)
    | 5 => .plain fun s => go s s.regs.hl
    | 7 => .plain fun s => putSp s s.regs.hl
    | _ => .plain fun s => writeStacked (drop s) (wordAt s.bus s.regs.sp) (p y)
  | 2 => match y with
    | 4 => .plain fun s => putCell s (device (lower s.regs.bc))
    | 5 => .word fun n s => putCell s n
    | 6 => .plain fun s => takeCell s (device (lower s.regs.bc))
    | 7 => .word fun n s => takeCell s n
    | _ => .word fun n s => if holds s y then go s n else s
  | 3 => match y with
    | 0 => .word fun n s => go s n
    | 1 => .byte extended
    | 6 => .plain fun s => enable s false
    | _ => .plain fun s => enable s true
  | 4 => .word fun n s => if holds s y then call s n else s
  | 5 =>
    if y.val % 2 = 0 then .plain fun s => push s (readStacked s (p y))
    else .word fun n s => call s n
  | 6 => .byte fun n s => accumulate s fun a f => alu y a n f
  | 7 => .plain fun s => call s (8 * UInt16.ofNat y)

def action (f : Fields) : Action :=
  match f.x with
  | 0 => first f.y f.z
  | 1 => second f.y f.z
  | 2 => third f.y f.z
  | 3 => fourth f.y f.z

def outcome (code : Byte) : Outcome :=
  if code = 0x76 then .unimplemented else if code = 0x10 then .stop else .proceed

def Action.run (m : Ram) (a : Word) (s : Processor Ram) : Action → Operand × Processor Ram
  | .plain f => (.none, f s)
  | .byte f => (.byte (m.get a), f (m.get a) s)
  | .word f => (.word (wordAt m a), f (wordAt m a) s)

/-- A step by fields: a hole is a fault that changes nothing; else the program counter is moved behind the
operand, and the action does the rest. -/
def step (s : Processor Ram) : Except Fault Completion × Processor Ram :=
  let pc := s.regs.pc
  let code := s.bus.get pc
  if code ∈ holes then (.error ⟨⟨code⟩, pc⟩, s)
  else
    let act := action (ofCode code)
    let r := act.run s.bus (pc + 1) (go s (pc + 1 + act.width))
    (.ok { pc, opcode := ⟨code⟩, operand := r.1, outcome := outcome code }, r.2)

end Fields

end Sm83
