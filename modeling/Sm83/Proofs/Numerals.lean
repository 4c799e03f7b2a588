import Mathlib.Data.List.Forall2
import Mathlib.Data.List.Induction
import Mathlib.Data.Nat.Digits.Defs
import Sm83.Console.Failure

/-!
Numbers in hexadecimal text, the highest digit first, and the texts that are read as addresses. A text is one, in any
number of digits, or it strays from the digits first, or its number exceeds a word first; never two of these.
-/

set_option autoImplicit false

namespace Sm83

namespace Hex

/-- A digit, written with letters of either case, and its value. -/
def Denotes (c : Char) (d : Nat) : Prop := d < 16 ∧ ∃ letters, c = digit letters d

theorem denotes_iff {c : Char} {d : Nat} : Denotes c d ↔ value? c = some d := by
  refine ⟨?_, fun h => ⟨value?_lt h, ?_⟩⟩
  · rintro ⟨hd, letters, rfl⟩
    rw [value?_digit, Nat.mod_eq_of_lt hd]
  · have hd := Nat.mod_eq_of_lt (value?_lt h)
    simp only [value?] at h
    split at h
    next hc =>
      cases h
      refine ⟨.lower, ?_⟩
      rw [digit, hd, if_pos (by omega), Nat.add_sub_cancel' hc.1, Char.ofNat_toNat]
    next =>
      split at h
      next hc =>
        cases h
        refine ⟨.upper, ?_⟩
        have hn : 55 + (c.toNat - 55) = c.toNat := by omega
        rw [digit, hd, if_neg (by omega), hn, Char.ofNat_toNat]
      next =>
        split at h
        next hc =>
          cases h
          refine ⟨.lower, ?_⟩
          have hn : 87 + (c.toNat - 87) = c.toNat := by omega
          rw [digit, hd, if_neg (by omega), hn, Char.ofNat_toNat]
        next => cases h

theorem denotes_digit (letters : Letters) (n : Nat) : Denotes (digit letters n) (n % 16) :=
  denotes_iff.2 (value?_digit letters n)

theorem not_denotes {c : Char} (h : value? c = none) (d : Nat) : ¬ Denotes c d := by
  rw [denotes_iff, h]
  exact nofun

theorem Denotes.unique {c : Char} {d e : Nat} (hd : Denotes c d) (he : Denotes c e) : d = e :=
  Option.some.inj ((denotes_iff.1 hd).symm.trans (denotes_iff.1 he))

/-- The characters are digits, and the number is what they make. -/
def Spells (cs : List Char) (n : Nat) : Prop :=
  ∃ ds, List.Forall₂ Denotes cs.reverse ds ∧ Nat.ofDigits 16 ds = n

theorem spells_nil {n : Nat} : Spells [] n ↔ n = 0 := by
  simp [Spells, eq_comm]

theorem spells_append {cs : List Char} {c : Char} {n : Nat} :
    Spells (cs ++ [c]) n ↔ ∃ m d, Spells cs m ∧ Denotes c d ∧ 16 * m + d = n := by
  constructor
  · rintro ⟨ds, hs, rfl⟩
    rw [List.reverse_append, List.reverse_singleton, List.singleton_append, List.forall₂_cons_left_iff] at hs
    obtain ⟨d, ds, hd, hs, rfl⟩ := hs
    exact ⟨_, d, ⟨ds, hs, rfl⟩, hd, by rw [Nat.ofDigits_cons, Nat.add_comm]⟩
  · rintro ⟨m, d, ⟨ds, hs, rfl⟩, hd, rfl⟩
    refine ⟨d :: ds, ?_, by rw [Nat.ofDigits_cons, Nat.add_comm]⟩
    rw [List.reverse_append, List.reverse_singleton, List.singleton_append]
    exact .cons hd hs

theorem Spells.unique {cs : List Char} {m n : Nat} (hm : Spells cs m) (hn : Spells cs n) : m = n := by
  induction cs using List.reverseRecOn generalizing m n with
  | nil => rw [spells_nil.1 hm, spells_nil.1 hn]
  | append_singleton cs c ih =>
    obtain ⟨k, d, hk, hd, rfl⟩ := spells_append.1 hm
    obtain ⟨l, e, hl, he, rfl⟩ := spells_append.1 hn
    rw [ih hk hl, hd.unique he]

theorem Spells.denotes {cs : List Char} {n : Nat} (h : Spells cs n) {c : Char} (hc : c ∈ cs) : ∃ d, Denotes c d := by
  induction cs using List.reverseRecOn generalizing n with
  | nil => cases hc
  | append_singleton cs b ih =>
    obtain ⟨m, d, hm, hd, rfl⟩ := spells_append.1 h
    rcases List.mem_append.1 hc with hc | hc
    · exact ih hm hc
    · exact ⟨d, List.mem_singleton.1 hc ▸ hd⟩

theorem Spells.notMem {cs : List Char} {n : Nat} (h : Spells cs n) {c : Char} (hc : ∀ d, ¬ Denotes c d) : c ∉ cs := by
  intro hm
  obtain ⟨d, hd⟩ := h.denotes hm
  exact hc d hd

theorem Spells.le_of_prefix {cs p : List Char} {m n : Nat} (h : Spells cs n) (hp : p <+: cs) (hm : Spells p m) :
    m ≤ n := by
  obtain ⟨t, rfl⟩ := hp
  induction t using List.reverseRecOn generalizing n with
  | nil =>
    rw [List.append_nil] at h
    exact (hm.unique h).le
  | append_singleton t c ih =>
    rw [← List.append_assoc] at h
    obtain ⟨k, d, hk, -, rfl⟩ := spells_append.1 h
    have := ih hk
    omega

theorem spells_digits (letters : Letters) (width n : Nat) : Spells (digits letters width n) (n % 16 ^ width) := by
  induction width generalizing n with
  | zero => exact spells_nil.2 (Nat.mod_one n)
  | succ width ih =>
    refine spells_append.2 ⟨_, _, ih (n / 16), denotes_digit letters n, ?_⟩
    rw [Nat.pow_succ', Nat.mod_mul, Nat.add_comm]

end Hex

namespace Address

/-- A character that is no digit stands no later than the digit at which the number first exceeds a word. -/
def Strays (cs : List Char) : Prop :=
  ∃ before c after, cs = before ++ c :: after ∧ (∀ d, ¬ Hex.Denotes c d) ∧
    ∀ p n, p <+: before → Hex.Spells p n → n ≤ 0xFFFF

/-- The number exceeds a word before any character that is no digit. -/
def Exceeds (cs : List Char) : Prop := ∃ p n, p <+: cs ∧ Hex.Spells p n ∧ 0xFFFF < n

/-- What is told of the characters by the outcome of reading them. -/
def Tells (cs : List Char) : Except Problem Nat → Prop
  | .ok n => n ≤ 0xFFFF ∧ Hex.Spells cs n
  | .error .notDigit => Strays cs
  | .error .tooLarge => Exceeds cs
  | .error .empty => False

theorem Strays.not_spells {cs : List Char} {n : Nat} (h : Strays cs) : ¬ Hex.Spells cs n := by
  intro hs
  obtain ⟨before, c, after, rfl, hc, -⟩ := h
  exact hs.notMem hc (List.mem_append_right before List.mem_cons_self)

theorem Strays.not_exceeds {cs : List Char} (h : Strays cs) : ¬ Exceeds cs := by
  rintro ⟨p, n, hp, hs, hn⟩
  obtain ⟨before, c, after, rfl, hc, hb⟩ := h
  rcases List.prefix_or_prefix_of_prefix hp (List.prefix_append before (c :: after)) with hx | hx
  · have := hb p n hx hs
    omega
  · -- the digits go on beyond the character
    obtain ⟨t, rfl⟩ := hx
    cases t with
    | nil =>
      rw [List.append_nil] at hs
      have := hb before n List.prefix_rfl hs
      omega
    | cons x t =>
      obtain ⟨rfl, -⟩ := List.cons_prefix_cons.1 ((List.prefix_append_right_inj before).1 hp)
      exact hs.notMem hc (List.mem_append_right before List.mem_cons_self)

theorem tells_extend {before : List Char} {v : Nat} (hv : v ≤ 0xFFFF) (hb : Hex.Spells before v) (cs : List Char) :
    Tells (before ++ cs) (extend v cs) := by
  induction cs generalizing before v with
  | nil => exact ⟨hv, (List.append_nil before).symm ▸ hb⟩
  | cons c cs ih =>
    rw [extend]
    cases hc : Hex.value? c with
    | none =>
      -- the digits before have not exceeded a word, or this character would not have been reached
      exact ⟨before, c, cs, rfl, Hex.not_denotes hc, fun p n hp hn => (hb.le_of_prefix hp hn).trans hv⟩
    | some d =>
      have hs : Hex.Spells (before ++ [c]) (16 * v + d) :=
        Hex.spells_append.2 ⟨v, d, hb, Hex.denotes_iff.2 hc, rfl⟩
      rw [List.append_cons]
      by_cases hn : 0xFFFF < 16 * v + d
      · simp only [if_pos hn]
        exact ⟨_, _, List.prefix_append _ _, hs, hn⟩
      · simp only [if_neg hn]
        exact ih (Nat.le_of_not_lt hn) hs

theorem extend_eq_ok_iff {cs : List Char} {n : Nat} : extend 0 cs = .ok n ↔ n ≤ 0xFFFF ∧ Hex.Spells cs n := by
  have h : Tells cs (extend 0 cs) := tells_extend (Nat.zero_le _) (Hex.spells_nil.2 rfl) cs
  refine ⟨fun he => by rwa [he] at h, fun ⟨hn, hs⟩ => ?_⟩
  cases he : extend 0 cs with
  | ok m =>
    rw [he] at h
    rw [h.2.unique hs]
  | error problem =>
    rw [he] at h
    cases problem with
    | empty => exact h.elim
    | notDigit => exact (h.not_spells hs).elim
    | tooLarge =>
      obtain ⟨p, m, hp, hm, hx⟩ := h
      have := hs.le_of_prefix hp hm
      omega

theorem dropMarker_eq (cs : List Char) :
    dropMarker cs = ((cs.dropPrefix? ['0', 'x']).or (cs.dropPrefix? ['0', 'X'])).getD cs := by
  fun_cases dropMarker cs with
  | case1 => simp [List.dropPrefix?]
  | case2 => simp [List.dropPrefix?]
  | case3 cs hx hX =>
    have h (c : Char) (hc : ∀ t, cs ≠ '0' :: c :: t) : cs.dropPrefix? ['0', c] = none := by
      rw [Option.eq_none_iff_forall_ne_some]
      intro t ht
      obtain ⟨p, rfl, hp⟩ := List.dropPrefix?_eq_some_iff.1 ht
      rw [eq_of_beq hp] at hc
      exact hc t rfl
    rw [h 'x' fun t => hx t, h 'X' fun t => hX t]
    rfl

theorem dropSign_eq (cs : List Char) :
    dropSign cs = if 1 < cs.length then (cs.dropPrefix? ['+']).getD cs else cs := by
  match cs with
  | [] => rfl
  | [c] => by_cases h : c = '+' <;> simp [dropSign]
  | c :: b :: cs => by_cases h : c = '+' <;> simp [dropSign, List.dropPrefix?, h]

theorem dropSign_eq_nil_iff {cs : List Char} : dropSign cs = [] ↔ cs = [] := by
  fun_cases dropSign cs <;> simp

theorem ofChars_of_ne_nil {cs : List Char} (h : cs ≠ []) : ofChars cs = extend 0 (dropSign cs) := by
  cases cs with
  | nil => exact (h rfl).elim
  | cons c cs => rfl

theorem ofChars_eq_ok_iff {cs : List Char} {n : Nat} :
    ofChars cs = .ok n ↔ dropSign cs ≠ [] ∧ n ≤ 0xFFFF ∧ Hex.Spells (dropSign cs) n := by
  by_cases h : cs = []
  · simp [h, ofChars, dropSign]
  · rw [ofChars_of_ne_nil h, extend_eq_ok_iff, Ne, dropSign_eq_nil_iff]
    exact (and_iff_right h).symm

theorem ofChars_eq_error {cs : List Char} (h : ∀ n, ofChars cs ≠ .ok n) : ∃ problem, ofChars cs = .error problem ∧
    (cs = [] → problem = .empty) ∧ (cs ≠ [] → Strays (dropSign cs) → problem = .notDigit) ∧
      (cs ≠ [] → ¬ Strays (dropSign cs) → problem = .tooLarge) := by
  by_cases hc : cs = []
  · subst hc
    exact ⟨.empty, rfl, fun _ => rfl, fun hn => (hn rfl).elim, fun hn => (hn rfl).elim⟩
  · rw [ofChars_of_ne_nil hc] at h ⊢
    have ht : Tells (dropSign cs) (extend 0 (dropSign cs)) :=
      tells_extend (Nat.zero_le _) (Hex.spells_nil.2 rfl) _
    cases he : extend 0 (dropSign cs) with
    | ok n => exact (h n he).elim
    | error problem =>
      rw [he] at ht
      cases problem with
      | empty => exact ht.elim
      | notDigit => exact ⟨_, rfl, fun hn => (hc hn).elim, fun _ _ => rfl, fun _ hs => (hs ht).elim⟩
      | tooLarge => exact ⟨_, rfl, fun hn => (hc hn).elim, fun _ hs => (hs.not_exceeds ht).elim, fun _ _ => rfl⟩

end Address

theorem readAddress_eq_ok_iff {text : String} {w : Word} : readAddress text = .ok w ↔
    Address.dropSign (Address.dropMarker text.toList) ≠ [] ∧
      Hex.Spells (Address.dropSign (Address.dropMarker text.toList)) w.toNat := by
  have hi (n : Nat) := @Address.ofChars_eq_ok_iff (Address.dropMarker text.toList) n
  rw [readAddress, Address.read]
  generalize Address.dropSign (Address.dropMarker text.toList) = s at hi ⊢
  cases h : Address.ofChars (Address.dropMarker text.toList) with
  | ok n =>
    obtain ⟨hs, hn, hv⟩ := (hi n).1 h
    have hw : (UInt16.ofNat n).toNat = n := UInt16.toNat_ofNat_of_lt' (Nat.lt_succ_of_le hn)
    refine ⟨fun h => ?_, fun ⟨_, h⟩ => ?_⟩
    · cases h
      exact ⟨hs, hw.symm ▸ hv⟩
    · rw [hv.unique h, Except.map, UInt16.ofNat_toNat]
      rfl
  | error problem =>
    refine ⟨fun h => (nomatch h), fun ⟨hs, hv⟩ => ?_⟩
    have := (hi w.toNat).2 ⟨hs, Nat.le_of_lt_succ w.toNat_lt, hv⟩
    rw [h] at this
    cases this

theorem exists_of_readAddress {text : String} {f : Failure} (h : readAddress text = .error f) :
    ∃ problem, f = .address text problem := by
  rw [readAddress] at h
  cases hr : Address.read text with
  | ok w =>
    rw [hr] at h
    cases h
  | error problem =>
    rw [hr] at h
    cases h
    exact ⟨problem, rfl⟩

theorem Hex.Spells.dropMarker {cs : List Char} {n : Nat} (h : Spells cs n) : Address.dropMarker cs = cs := by
  fun_cases Address.dropMarker cs with
  | case1 cs =>
    have hx : 'x' ∉ '0' :: 'x' :: cs := h.notMem (not_denotes rfl)
    simp at hx
  | case2 cs =>
    have hX : 'X' ∉ '0' :: 'X' :: cs := h.notMem (not_denotes rfl)
    simp at hX
  | case3 => rfl

theorem Hex.Spells.dropSign {cs : List Char} {n : Nat} (h : Spells cs n) : Address.dropSign cs = cs := by
  fun_cases Address.dropSign cs with
  | case1 c cs =>
    have hs : '+' ∉ '+' :: c :: cs := h.notMem (not_denotes rfl)
    simp at hs
  | case2 => rfl

theorem readAddress_of_spells {marker : String} (hm : marker ∈ ["", "0x", "0X"]) {cs : List Char} {w : Word}
    (hc : cs ≠ []) (h : Hex.Spells cs w.toNat) : readAddress (marker ++ String.ofList cs) = .ok w := by
  have hd : Address.dropMarker (marker ++ String.ofList cs).toList = cs := by
    simp only [List.mem_cons, List.not_mem_nil, or_false] at hm
    rw [String.toList_append, String.toList_ofList]
    rcases hm with rfl | rfl | rfl
    · exact h.dropMarker
    · rfl
    · rfl
  rw [readAddress_eq_ok_iff, hd, h.dropSign]
  exact ⟨hc, h⟩

theorem readAddress_word (w : Word) : readAddress (Hex.word w) = .ok w := by
  have hv := Hex.spells_digits .upper 4 w.toNat
  rw [Nat.mod_eq_of_lt (show w.toNat < 16 ^ 4 from w.toNat_lt)] at hv
  have hm : "0x" ∈ ["", "0x", "0X"] := by simp
  exact readAddress_of_spells hm (by simp [Hex.digits]) hv

/-- A text is read as an address just if, behind a marker and then a sign that it may have, it has digits of a number
that fits in a word, of any length and in letters of either case. Any other text fails, is quoted whole, and the cause
is what stands first in it. So every address is read back from every way to write it. -/
theorem Address.reads_numerals (text : String) :
    let cs := text.toList
    let d := ((cs.dropPrefix? ['0', 'x']).or (cs.dropPrefix? ['0', 'X'])).getD cs
    let s := if 1 < d.length then (d.dropPrefix? ['+']).getD d else d
    (∀ w, readAddress text = .ok w ↔ s ≠ [] ∧ Hex.Spells s w.toNat) ∧
      ((¬ ∃ n ≤ 0xFFFF, s ≠ [] ∧ Hex.Spells s n) → ∃ f cause, readAddress text = .error f ∧
        f.chain = ["invalid address '" ++ text ++ "'", cause] ∧
          (d = [] → cause = "cannot parse integer from empty string") ∧
          (d ≠ [] → Strays s → cause = "invalid digit found in string") ∧
          (d ≠ [] → ¬ Strays s → cause = "number too large to fit in target type")) ∧
      ∀ w : Word, ∀ marker ∈ ["", "0x", "0X"], ∀ letters width, 0 < width → w.toNat < 16 ^ width →
        readAddress (marker ++ Hex.render letters width w.toNat) = .ok w := by
  intro cs d s
  have hd : dropMarker text.toList = d := dropMarker_eq cs
  have hs : dropSign d = s := dropSign_eq d
  refine ⟨fun w => ?_, fun hn => ?_, fun w marker hm letters width hw hl => ?_⟩
  · rw [readAddress_eq_ok_iff, hd, hs]
  · have hx (n : Nat) : ofChars d ≠ .ok n := by
      intro h
      obtain ⟨h0, h1, h2⟩ := ofChars_eq_ok_iff.1 h
      rw [hs] at h0 h2
      exact hn ⟨n, h1, h0, h2⟩
    obtain ⟨problem, he, h0, h1, h2⟩ := ofChars_eq_error hx
    rw [hs] at h1 h2
    refine ⟨.address text problem, problem.message, ?_, rfl, fun h => ?_, fun h hx => ?_, fun h hx => ?_⟩
    · rw [readAddress, Address.read, hd, he]
      rfl
    · rw [h0 h]
      rfl
    · rw [h1 h hx]
      rfl
    · rw [h2 h hx]
      rfl
  · have hv := Hex.spells_digits letters width w.toNat
    rw [Nat.mod_eq_of_lt hl] at hv
    refine readAddress_of_spells hm ?_ hv
    rw [← List.length_pos_iff, Hex.length_digits]
    exact hw

/-- A full word before a character that is no digit, a number too large before one, and an address in eight digits. -/
theorem Address.reads_numerals_at_limit :
    (Strays ['F', 'F', 'F', 'F', 'g', '0'] ∧ ∃ f, readAddress "0X+FFFFg0" = .error f ∧
      f.chain = ["invalid address '0X+FFFFg0'", "invalid digit found in string"]) ∧
    (¬ Strays ['1', '0', '0', '0', '0', 'g'] ∧ ∃ f, readAddress "10000g" = .error f ∧
      f.chain = ["invalid address '10000g'", "number too large to fit in target type"]) ∧
    (0xC0DE : Word).toNat < 16 ^ 8 ∧ readAddress "0x0000c0de" = .ok 0xC0DE := by
  have hg : ∀ d, ¬ Hex.Denotes 'g' d := Hex.not_denotes rfl
  have hf : Hex.Spells ['F', 'F', 'F', 'F'] 0xFFFF := Hex.spells_digits .upper 4 0xFFFF
  have hs : Strays ['F', 'F', 'F', 'F', 'g', '0'] :=
    ⟨['F', 'F', 'F', 'F'], 'g', ['0'], rfl, hg, fun p n hp hn => hf.le_of_prefix hp hn⟩
  have hl : ¬ Strays ['1', '0', '0', '0', '0', 'g'] := fun h =>
    h.not_exceeds ⟨_, 0x10000, List.prefix_append _ ['g'], Hex.spells_digits .upper 5 0x10000, by decide⟩
  have hn : ∀ n, ¬ Hex.Spells ['1', '0', '0', '0', '0', 'g'] n := fun n h => h.notMem hg (by simp)
  obtain ⟨-, hx, hw⟩ := reads_numerals "0X+FFFFg0"
  obtain ⟨f, cause, he, hc, -, hi, -⟩ := hx fun ⟨n, _, _, h⟩ => hs.not_spells h
  obtain ⟨-, hy, -⟩ := reads_numerals "10000g"
  obtain ⟨g, other, hr, ho, -, -, hj⟩ := hy fun ⟨n, _, _, h⟩ => hn n h
  refine ⟨⟨hs, f, he, ?_⟩, ⟨hl, g, hr, ?_⟩, by decide, hw 0xC0DE "0x" (by simp) .lower 8 (by decide) (by decide)⟩
  · rw [hc, hi (by decide) hs]
    rfl
  · rw [ho, hj (by decide) hl]
    rfl

end Sm83
