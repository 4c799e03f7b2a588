import Sm83.Console.Command

/-!
Words and the blanks around them. A text is made of its words in one way only, whatever blanks stand before, between
and behind them, and a line means what its first word says; for a breakpoint its first two.
-/

set_option autoImplicit false

namespace Sm83

/-- A text of these words: any blanks before and behind each, and at least one between two of them. -/
inductive MadeOf : List Char → List (List Char) → Prop where
  | blanks (gap : List Char) (blank : ∀ c ∈ gap, isBlank c = true) : MadeOf gap []
  | word (gap w rest : List Char) (ws : List (List Char)) (blank : ∀ c ∈ gap, isBlank c = true) (ne : w ≠ [])
    (solid : ∀ c ∈ w, isBlank c = false) (ends : ∀ c ∈ rest.head?, isBlank c = true) (more : MadeOf rest ws) :
    MadeOf (gap ++ (w ++ rest)) (w :: ws)

namespace MadeOf

theorem filter_pieces_append {gap : List Char} (h : ∀ c ∈ gap, isBlank c = true) (cs : List Char) :
    (pieces (gap ++ cs)).filter (!·.isEmpty) = (pieces cs).filter (!·.isEmpty) := by
  induction gap with
  | nil => rfl
  | cons c gap ih =>
    rw [List.cons_append, pieces, if_pos (h c List.mem_cons_self)]
    exact ih fun c hc => h c (List.mem_cons_of_mem _ hc)

theorem exists_pieces {rest : List Char} (h : ∀ c ∈ rest.head?, isBlank c = true) : ∃ ps, pieces rest = [] :: ps := by
  cases rest with
  | nil => exact ⟨[], rfl⟩
  | cons c rest => exact ⟨pieces rest, by rw [pieces, if_pos (h c rfl)]⟩

theorem pieces_append {w rest : List Char} {ps : List (List Char)} (h : ∀ c ∈ w, isBlank c = false)
    (hr : pieces rest = [] :: ps) : pieces (w ++ rest) = w :: ps := by
  induction w with
  | nil => exact hr
  | cons c w ih =>
    rw [List.cons_append, pieces, if_neg (by simp [h c List.mem_cons_self]),
      ih fun c hc => h c (List.mem_cons_of_mem _ hc)]

theorem filter_pieces {cs : List Char} {ws : List (List Char)} (h : MadeOf cs ws) :
    (pieces cs).filter (!·.isEmpty) = ws := by
  induction h with
  | blanks gap blank => exact (filter_pieces_eq_nil_iff gap).2 (List.all_eq_true.2 blank)
  | word gap w rest ws blank ne solid ends more ih =>
    obtain ⟨ps, hp⟩ := exists_pieces ends
    rw [filter_pieces_append blank, pieces_append solid hp, ← ih, hp]
    simp [ne]

theorem exists_words (cs : List Char) : ∃ ws, MadeOf cs ws := by
  induction cs with
  | nil => exact ⟨[], .blanks [] nofun⟩
  | cons c cs ih =>
    obtain ⟨ws, h⟩ := ih
    by_cases hc : isBlank c = true
    · have hb {gap : List Char} (blank : ∀ c ∈ gap, isBlank c = true) : ∀ b ∈ c :: gap, isBlank b = true :=
        List.forall_mem_cons.2 ⟨hc, blank⟩
      cases h with
      | blanks gap blank => exact ⟨_, .blanks _ (hb blank)⟩
      | word gap w rest ws blank ne solid ends more => exact ⟨_, .word (c :: gap) w rest ws (hb blank) ne solid ends more⟩
    · have hc : isBlank c = false := Bool.eq_false_iff.2 hc
      have hs {w : List Char} (solid : ∀ c ∈ w, isBlank c = false) : ∀ b ∈ c :: w, isBlank b = false :=
        List.forall_mem_cons.2 ⟨hc, solid⟩
      -- the character begins a word of its own, or is the first of the word that stands there
      cases h with
      | blanks _ blank =>
        refine ⟨_, .word [] [c] cs [] nofun (by simp) (hs nofun) (fun b hb => ?_) (.blanks cs blank)⟩
        exact blank b (List.mem_of_mem_head? hb)
      | word gap w rest ws blank ne solid ends more =>
        cases gap with
        | nil => exact ⟨_, .word [] (c :: w) rest ws nofun (by simp) (hs solid) ends more⟩
        | cons b gap =>
          refine ⟨_, .word [] [c] _ _ nofun (by simp) (hs nofun) (fun x hx => ?_)
            (.word (b :: gap) w rest ws blank ne solid ends more)⟩
          cases hx
          exact blank b List.mem_cons_self

end MadeOf

theorem madeOf_iff {cs : List Char} {ws : List (List Char)} :
    MadeOf cs ws ↔ (pieces cs).filter (!·.isEmpty) = ws := by
  refine ⟨MadeOf.filter_pieces, fun h => ?_⟩
  obtain ⟨vs, hv⟩ := MadeOf.exists_words cs
  rwa [← h, hv.filter_pieces]

theorem words_eq_iff {line : String} {ws : List (List Char)} :
    words line = ws.map String.ofList ↔ MadeOf line.toList ws := by
  rw [words, madeOf_iff]
  exact List.map_inj_right fun v w h => String.ofList_injective h

end Sm83
