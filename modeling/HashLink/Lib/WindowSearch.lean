import Mathlib.Order.Basic
import Mathlib.Tactic.Common

/-! Search for a pattern by windows of a text. After a window that does not match, the next one that can match is the
nearest one under which the element after the window agrees with the pattern. -/

namespace WindowSearch

variable {α : Type} (text pattern : Nat → α) (m n : Nat)

/-- The `m` elements of the pattern are at `w`. -/
def Occurs (w : Nat) : Prop := ∀ k < m, text (w + k) = pattern k

/-- The window after `w`: the nearest one that agrees with the element after `w`, or the one after that element. -/
structure Next (w w' : Nat) : Prop where
  lt : w < w'
  le : w' ≤ w + m + 1
  agrees : w' ≤ w + m → pattern (w + m - w') = text (w + m)
  passed : ∀ v, w < v → v < w' → pattern (w + m - v) ≠ text (w + m)

/-- The windows that are tried from `w` on, in a text of `n` elements. -/
inductive Tried : Nat → Nat → Prop where
  | here (w : Nat) : Tried w w
  | next {w w' v : Nat} (hfits : w + m ≤ n) (hmiss : ¬Occurs text pattern m w) (hnext : Next text pattern m w w')
      (h : Tried w' v) : Tried w v

variable {text pattern m n} {w w' v : Nat}

theorem Next.not_occurs (h : Next text pattern m w w') (hlow : w < v) (hhigh : v < w') :
    ¬Occurs text pattern m v := by
  intro hv
  have hle := h.le
  have hat := hv (w + m - v) (by omega)
  rw [show v + (w + m - v) = w + m by omega] at hat
  exact h.passed v hlow hhigh hat.symm

theorem Next.unique {w₁ w₂ : Nat} (h₁ : Next text pattern m w w₁) (h₂ : Next text pattern m w w₂) : w₁ = w₂ := by
  have hle₁ := h₁.le
  have hle₂ := h₂.le
  rcases Nat.lt_trichotomy w₁ w₂ with hlt | heq | hgt
  · exact absurd (h₁.agrees (by omega)) (h₂.passed w₁ h₁.lt hlt)
  · exact heq
  · exact absurd (h₂.agrees (by omega)) (h₁.passed w₂ h₂.lt hgt)

theorem Tried.le (h : Tried text pattern m n w v) : w ≤ v := by
  induction h with
  | here w => exact Nat.le_refl w
  | next _ _ hnext _ ih => exact Nat.le_trans (Nat.le_of_lt hnext.lt) ih

theorem Tried.eq_of_occurs (h : Tried text pattern m n w v) (hw : Occurs text pattern m w) : w = v := by
  cases h with
  | here => rfl
  | next _ hmiss _ _ => exact absurd hw hmiss

theorem tried_iff_of_next (hfits : w + m ≤ n) (hmiss : ¬Occurs text pattern m w) (hnext : Next text pattern m w w')
    (hne : w ≠ v) : Tried text pattern m n w v ↔ Tried text pattern m n w' v := by
  constructor
  · intro h
    cases h with
    | here => exact absurd rfl hne
    | next _ _ hnext' h => exact hnext.unique hnext' ▸ h
  · exact Tried.next hfits hmiss hnext

end WindowSearch
