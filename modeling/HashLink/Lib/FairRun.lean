import Mathlib.Order.Nat

/-! Infinite runs of a system that takes one action after another, and what must happen in them: a property
that lasts until a helpful action comes, and then gives another, gives it when helpful actions keep coming. -/

namespace FairRun

variable {σ α : Type*} {step : σ → α → σ} {s : ℕ → σ} {a : ℕ → α} {Inv P Q : σ → Prop}

/-- The states are those that the actions lead through. -/
def IsRun (step : σ → α → σ) (s : ℕ → σ) (a : ℕ → α) : Prop := ∀ n, s (n + 1) = step (s n) (a n)

theorem IsRun.invariant (hrun : IsRun step s a) (hstart : Inv (s 0))
    (hstep : ∀ x act, Inv x → Inv (step x act)) : ∀ n, Inv (s n) := by
  intro n
  induction n with
  | zero => exact hstart
  | succ n ih =>
    rw [hrun n]
    exact hstep _ _ ih

theorem IsRun.lasts (hrun : IsRun step s a) (hinv : ∀ n, Inv (s n))
    (hstep : ∀ x act, Inv x → P x → P (step x act)) {n m : ℕ} (hP : P (s n)) (hnm : n ≤ m) : P (s m) := by
  induction m, hnm using Nat.le_induction with
  | base => exact hP
  | succ m _ ih =>
    rw [hrun m]
    exact hstep _ _ (hinv m) ih

theorem IsRun.eventually (hrun : IsRun step s a) (hinv : ∀ n, Inv (s n)) {H : σ → α → Prop}
    (hfair : ∀ n, ∃ m, n ≤ m ∧ H (s m) (a m))
    (hwait : ∀ x act, Inv x → P x → ¬H x act → P (step x act) ∨ Q (step x act))
    (hhelp : ∀ x act, Inv x → P x → H x act → Q (step x act)) {n : ℕ} (hP : P (s n)) :
    ∃ m, n ≤ m ∧ Q (s m) := by
  obtain ⟨last, hle, hact⟩ := hfair n
  have hreach : ∀ d m, m + d = last → P (s m) → ∃ k, m ≤ k ∧ Q (s k) := by
    intro d
    induction d with
    | zero =>
      intro m hm hPm
      rw [Nat.add_zero] at hm
      subst hm
      refine ⟨m + 1, Nat.le_succ m, ?_⟩
      rw [hrun m]
      exact hhelp _ _ (hinv m) hPm hact
    | succ d ih =>
      intro m hm hPm
      by_cases hnow : H (s m) (a m)
      · refine ⟨m + 1, Nat.le_succ m, ?_⟩
        rw [hrun m]
        exact hhelp _ _ (hinv m) hPm hnow
      · have hnext := hwait _ _ (hinv m) hPm hnow
        rw [← hrun m] at hnext
        rcases hnext with hP' | hQ
        · obtain ⟨k, hk, hQ⟩ := ih (m + 1) (by omega) hP'
          exact ⟨k, by omega, hQ⟩
        · exact ⟨m + 1, Nat.le_succ m, hQ⟩
  exact hreach (last - n) n (by omega) hP

end FairRun
