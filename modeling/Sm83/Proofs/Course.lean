import Sm83.Proofs.Moves

/-!
Runs of a sequencer over any offers.
-/

set_option autoImplicit false

namespace Sm83

/-- A sequencer with all it told, and the processor that its commits are counted from: the one it began
with, or the one that the last reset left. -/
structure Course (μ : Type) where
  base : Processor μ
  now : Sequencer μ
  told : List Event := []

namespace Course

variable {μ : Type}

def ofProcessor (p : Processor μ) : Course μ := { base := p, now := .ofProcessor p }

variable [Bus μ]

def meet (c : Course μ) (offer : Option Request) : Course μ :=
  let r := c.now.react offer
  { base := if offer = some .reset ∧ c.now.phase ≠ .gone then c.now.processor.reset else c.base
    now := r.next
    told := c.told ++ r.events }

@[simp] theorem now_meet (c : Course μ) (o : Option Request) : (c.meet o).now = (c.now.react o).next := rfl

@[simp] theorem told_meet (c : Course μ) (o : Option Request) :
    (c.meet o).told = c.told ++ (c.now.react o).events := rfl

/-- Any offers in any order: a request whenever there is one to take, `none` whenever there is none. -/
def follow (c : Course μ) (offers : List (Option Request)) : Course μ := offers.foldl meet c

@[simp] theorem follow_nil (c : Course μ) : c.follow [] = c := rfl

@[simp] theorem follow_cons (c : Course μ) (o : Option Request) (os : List (Option Request)) :
    c.follow (o :: os) = (c.meet o).follow os := rfl

theorem follow_append (c : Course μ) (os qs : List (Option Request)) :
    c.follow (os ++ qs) = (c.follow os).follow qs := by
  simp [follow]

theorem follow_keeps {I : Course μ → Prop} (step : ∀ c o, I c → I (c.meet o)) {c : Course μ}
    (h : I c) (offers : List (Option Request)) : I (c.follow offers) := by
  induction offers generalizing c with
  | nil => exact h
  | cons o os ih => exact ih (step c o h)

theorem fits_follow (p : Processor μ) (offers : List (Option Request)) :
    let s := ((ofProcessor p).follow offers).now
    s.phase.Fits s.run := by
  have h : (ofProcessor p).now.phase.Fits (ofProcessor p).now.run := rfl
  exact follow_keeps (fun c o hc => c.now.fits_react o hc) h offers

/-- What holds of the base, of all that is told, of the sequencer and of the instruction it has in hand, is a
matter of single moves and of single requests. -/
theorem follow_holds {J : Processor μ → List Event → Sequencer μ → Option Opcode → Prop}
    (p : Processor μ) (start : J p [] (.ofProcessor p) none)
    (take : ∀ base told s hand r, J base told s hand → (s.run.active = false → hand = none) →
      J (if r = .reset then s.processor.reset else base) (told ++ (s.take r).events) (s.take r).next hand)
    (move : ∀ base told s hand r last, J base told s hand → Move s hand r last →
      J base (told ++ r.events) r.next last)
    (offers : List (Option Request)) :
    let c := (ofProcessor p).follow offers
    J c.base c.told c.now c.now.phase.held? := by
  have h : (ofProcessor p).now.phase.Fits (ofProcessor p).now.run := rfl
  refine And.right (follow_keeps (I := fun c => c.now.phase.Fits c.now.run ∧
    J c.base c.told c.now c.now.phase.held?) ?_ ⟨h, start⟩ offers)
  intro c o ⟨hf, hc⟩
  refine ⟨c.now.fits_react o hf, ?_⟩
  refine Sequencer.react_keeps (J := J (c.meet o).base) (move _) ?_ ?_
  · intro ho
    have hb : (c.meet o).base = c.base := by
      rcases ho with rfl | hg
      · simp [meet]
      · simp [meet, hg]
    rw [hb]
    exact hc
  · intro r ho hg
    have hb : (c.meet o).base = if r = .reset then c.now.processor.reset else c.base := by
      simp [meet, ho, hg]
    rw [hb]
    exact take _ _ _ _ r hc hf.held?_eq_none

end Course

end Sm83
