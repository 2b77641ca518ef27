import Mathlib.Order.Basic

/-!
The search for a place among ordered ones, with the interval halved as a C loop over `min` and `max` halves it.
-/

namespace Bisect

inductive Found where
  | hit (pos : Nat)
  | miss (pos : Nat)
  deriving DecidableEq, Repr

/-- `while( min < max ) { mid = (min + max) >> 1; .. }` with three cases: what is looked for is behind `mid`, before
it, or there. -/
def search (cmp : Nat → Ordering) : Nat → Nat → Nat → Found
  | 0, min, max => .miss ((min + max) / 2)
  | fuel + 1, min, max =>
    if min < max then
      let mid := (min + max) / 2
      match cmp mid with
      | .gt => search cmp fuel (mid + 1) max
      | .lt => search cmp fuel min mid
      | .eq => .hit mid
    else .miss ((min + max) / 2)

/-- What is before something too small is too small, and what is behind something too large is too large. -/
structure Ordered (cmp : Nat → Ordering) (n : Nat) : Prop where
  gt : ∀ i j, i < j → j < n → cmp j = .gt → cmp i = .gt
  lt : ∀ i j, i < j → j < n → cmp i = .lt → cmp j = .lt

/-- A search finds what is there, or the place where it belongs. -/
def Meets (cmp : Nat → Ordering) (n : Nat) : Found → Prop
  | .hit pos => pos < n ∧ cmp pos = .eq
  | .miss pos => pos ≤ n ∧ (∀ i < pos, cmp i = .gt) ∧ ∀ i, pos ≤ i → i < n → cmp i = .lt

section Search

variable {cmp : Nat → Ordering} {n min max fuel : Nat}

theorem meets_miss (hle : min ≤ n) (heq : min = max) (hbefore : ∀ i < min, cmp i = .gt)
    (hafter : ∀ i, max ≤ i → i < n → cmp i = .lt) : Meets cmp n (.miss ((min + max) / 2)) := by
  have hpos : (min + max) / 2 = min := by omega
  rw [hpos]
  exact ⟨hle, hbefore, fun i hi => hafter i (heq ▸ hi)⟩

theorem search_spec (h : Ordered cmp n) (hle : min ≤ max) (hmax : max ≤ n) (hfuel : max - min ≤ fuel)
    (hbefore : ∀ i < min, cmp i = .gt) (hafter : ∀ i, max ≤ i → i < n → cmp i = .lt) :
    Meets cmp n (search cmp fuel min max) := by
  induction fuel generalizing min max with
  | zero => exact meets_miss (Nat.le_trans hle hmax) (by omega) hbefore hafter
  | succ fuel ih =>
    rw [search]
    split
    next hlt =>
      have hmid : (min + max) / 2 < n := by omega
      dsimp only
      split
      next hgt =>
        refine ih (by omega) hmax (by omega) (fun i hi => ?_) hafter
        rcases Nat.lt_or_eq_of_le (Nat.le_of_lt_succ hi) with hi | rfl
        · exact h.gt i _ hi hmid hgt
        · exact hgt
      next hlt' =>
        refine ih (by omega) (Nat.le_of_lt hmid) (by omega) hbefore fun i hi hn => ?_
        rcases Nat.lt_or_eq_of_le hi with hi | rfl
        · exact h.lt _ i hi hn hlt'
        · exact hlt'
      next heq => exact ⟨hmid, heq⟩
    next hge => exact meets_miss (Nat.le_trans hle hmax) (by omega) hbefore hafter

end Search

end Bisect
