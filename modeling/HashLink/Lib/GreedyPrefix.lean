import Mathlib.Data.List.Basic

/-!
How much of a list can be found in another one, in order, when every element is taken as soon as it
comes. Taking greedily is best: the prefix found is the longest one that is a sublist.
-/

namespace GreedyPrefix

variable {α : Type} [DecidableEq α]

/-- The length of the prefix of the second list that is met in the first. -/
def found : List α → List α → Nat
  | [], _ => 0
  | _ :: _, [] => 0
  | a :: l, p :: ps => if a = p then found l ps + 1 else found l (p :: ps)

theorem found_nil (l : List α) : found l [] = 0 := by
  cases l <;> rfl

theorem take_found_sublist (l ps : List α) : (ps.take (found l ps)).Sublist l := by
  induction l generalizing ps with
  | nil => simp [found]
  | cons a l ih =>
    cases ps with
    | nil => simp [found]
    | cons p ps =>
      rw [found]
      split
      · next heq =>
        rw [heq, List.take_succ_cons]
        exact (ih ps).cons_cons p
      · exact (ih (p :: ps)).cons a

theorem le_found {l ps : List α} {n : Nat} (hn : n ≤ ps.length) (h : (ps.take n).Sublist l) :
    n ≤ found l ps := by
  induction l generalizing ps n with
  | nil =>
    have hnil := List.sublist_nil.1 h
    rw [List.take_eq_nil_iff] at hnil
    rcases hnil with rfl | rfl
    · exact Nat.zero_le _
    · exact hn
  | cons a l ih =>
    cases ps with
    | nil => exact hn
    | cons p ps =>
      cases n with
      | zero => exact Nat.zero_le _
      | succ n =>
        rw [List.take_succ_cons] at h
        rw [found]
        split
        · next heq =>
          subst heq
          exact Nat.succ_le_succ (ih (Nat.le_of_succ_le_succ hn) (List.cons_sublist_cons.1 h))
        · next hne =>
          apply ih hn
          rw [List.take_succ_cons]
          cases h with
          | cons _ h => exact h
          | cons_cons _ h => exact absurd rfl hne

theorem lt_found_iff {l ps : List α} {k : Nat} (hk : k < ps.length) :
    k < found l ps ↔ (ps.take (k + 1)).Sublist l := by
  constructor
  · intro h
    exact ((List.take_prefix_take_left h).sublist).trans (take_found_sublist l ps)
  · exact fun h => le_found hk h

end GreedyPrefix
