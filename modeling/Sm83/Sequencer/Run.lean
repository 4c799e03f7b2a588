import Sm83.Word

/-!
The flags of one run, what can be asked of them, and the breakpoints, which outlive the run.
-/

set_option autoImplicit false

namespace Sm83

/-- `armed` holds the next instruction back once; `sticky` arms every one. -/
structure Run where
  active : Bool := false
  paused : Bool := false
  debug : Bool := false
  armed : Bool := false
  sticky : Bool := false
  deriving DecidableEq, Repr

/-- Changes to the flags of a run; they mean nothing without one. -/
inductive Adjustment where
  | pause
  | resume
  | singleStep
  | sticky (on : Bool)
  deriving DecidableEq, Repr

def Adjustment.name : Adjustment → String
  | .pause => "Pause"
  | .resume => "Resume"
  | .singleStep => "Single step"
  | .sticky _ => "Sticky step"

namespace Run

def begin (debug : Bool) : Run := { active := true, debug }

/-- A single step lets go of the instruction held back, and holds back the one after it. -/
def adjust (r : Run) : Adjustment → Run
  | .pause => { r with paused := true }
  | .resume => { r with paused := false }
  | .singleStep => { r with debug := true, armed := false, sticky := true }
  | .sticky true => { r with debug := true, sticky := true }
  | .sticky false => { r with armed := false, sticky := false }

def meetBreakpoint (r : Run) : Run := { r with debug := true, armed := true, sticky := true }

def rearm (r : Run) : Run := if r.sticky then { r with armed := true } else r

end Run

structure Breakpoints where
  addresses : List Word := []
  deriving DecidableEq, Repr

namespace Breakpoints

def contains (b : Breakpoints) (a : Word) : Bool := b.addresses.contains a

def insert (b : Breakpoints) (a : Word) : Breakpoints :=
  if b.contains a then b else ⟨a :: b.addresses⟩

def erase (b : Breakpoints) (a : Word) : Breakpoints := ⟨b.addresses.filter (· ≠ a)⟩

@[simp] theorem contains_insert (b : Breakpoints) (a x : Word) :
    (b.insert a).contains x = (decide (x = a) || b.contains x) := by
  by_cases h : b.contains a = true
  · by_cases hx : x = a
    · subst hx; simp [insert, h]
    · simp [insert, h, hx]
  · simp [insert, contains] at h ⊢
    simp [h]

@[simp] theorem contains_erase (b : Breakpoints) (a x : Word) :
    (b.erase a).contains x = (decide (x ≠ a) && b.contains x) := by
  by_cases hx : x = a
  · subst hx; simp [erase, contains]
  · simp [erase, contains, hx]

end Breakpoints

end Sm83
