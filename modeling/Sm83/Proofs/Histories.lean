/-!
Histories: a state that is changed step after step, and something that is seen of it. If every step leaves what is
seen, or shows something of its own instead, then so does the history, which shows what was shown last.
-/

set_option autoImplicit false

namespace Sm83

variable {σ ω β : Type} {f : σ → ω → σ} (see : σ → β)

theorem foldl_same (h : ∀ s w, see (f s w) = see s) (s : σ) (ws : List ω) : see (ws.foldl f s) = see s := by
  induction ws generalizing s with
  | nil => rfl
  | cons w ws ih => exact (ih (f s w)).trans (h s w)

theorem foldl_last {shows? : ω → Option β} (h : ∀ s w, see (f s w) = (shows? w).getD (see s)) (s : σ) (ws : List ω) :
    see (ws.foldl f s) = (ws.filterMap shows?).getLast?.getD (see s) := by
  induction ws generalizing s with
  | nil => rfl
  | cons w ws ih =>
    rw [List.foldl_cons, ih, h]
    cases hw : shows? w with
    | none => rw [List.filterMap_cons_none hw, Option.getD_none]
    | some v => rw [List.filterMap_cons_some hw, List.getLast?_cons, Option.getD_some, Option.getD_some]

end Sm83
