/-!
Blank characters, the 25 of the property White_Space, and the words between them.
-/

set_option autoImplicit false

namespace Sm83

/-- Intervals of code points, both ends included. -/
def blankRanges : List (Nat × Nat) :=
  [(0x09, 0x0D), (0x20, 0x20), (0x85, 0x85), (0xA0, 0xA0), (0x1680, 0x1680), (0x2000, 0x200A),
    (0x2028, 0x2029), (0x202F, 0x202F), (0x205F, 0x205F), (0x3000, 0x3000)]

def isBlank (c : Char) : Bool := blankRanges.any fun (first, last) => first ≤ c.toNat && c.toNat ≤ last

/-- Cuts at every blank character; neighbouring blanks leave empty pieces. -/
def pieces : List Char → List (List Char)
  | [] => [[]]
  | c :: cs =>
    if isBlank c then [] :: pieces cs
    else match pieces cs with
      | [] => [[c]]
      | w :: ws => (c :: w) :: ws

theorem filter_pieces_eq_nil_iff (cs : List Char) :
    (pieces cs).filter (!·.isEmpty) = [] ↔ cs.all isBlank = true := by
  induction cs with
  | nil => simp [pieces]
  | cons c cs ih =>
    by_cases h : isBlank c = true
    · simpa [pieces, h] using ih
    · simp only [pieces, if_neg h]
      split <;> simp [h]

def words (s : String) : List String := ((pieces s.toList).filter (!·.isEmpty)).map String.ofList

theorem words_eq_nil_iff (s : String) : words s = [] ↔ s.toList.all isBlank = true := by
  rw [words, List.map_eq_nil_iff, filter_pieces_eq_nil_iff]

end Sm83
