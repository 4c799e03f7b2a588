import Sm83.Sequencer.Basic

/-!
A sequencer with its inbox. Each turn offers the oldest request, if there is one; a sequencer that is gone
reads no more, so what is left in its inbox is lost.
-/

set_option autoImplicit false

namespace Sm83

structure Loop (μ : Type) where
  sequencer : Sequencer μ
  inbox : List Request := []

namespace Loop

variable {μ : Type}

def ofProcessor (p : Processor μ) : Loop μ := { sequencer := .ofProcessor p }

def isGone (l : Loop μ) : Bool :=
  match l.sequencer.phase with
  | .gone => true
  | _ => false

def isBlocked (l : Loop μ) : Bool :=
  match l.sequencer.phase with
  | .gather => false
  | .gone => true
  | .rest | .held _ _ => l.inbox.isEmpty

def send (l : Loop μ) (rs : List Request) : Loop μ := { l with inbox := l.inbox ++ rs }

def turn [Bus μ] (l : Loop μ) : Loop μ × List Event :=
  if l.isGone then ({ l with inbox := [] }, [])
  else
    let r := l.sequencer.react l.inbox.head?
    ({ sequencer := r.next, inbox := l.inbox.tail }, r.events)

/-- Takes turns until nothing happens, `fuel` at most. -/
def settle [Bus μ] : Nat → Loop μ → Array Event → Loop μ × Array Event
  | 0, l, told => (l, told)
  | fuel + 1, l, told =>
    if l.isBlocked then (l, told)
    else
      let (l, es) := l.turn
      settle fuel l (told ++ es)

end Loop

end Sm83
