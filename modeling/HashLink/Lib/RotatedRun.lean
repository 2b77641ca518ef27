import Mathlib.Algebra.Ring.Periodic
import Mathlib.Tactic.Ring

/-! Periodic sequences of bits. A run of zeros and the run of ones after it are no longer than a period
of the sequence; when they are a period together, the sequence is that run of ones repeated. -/

namespace RotatedRun

open Function

variable {f : ℤ → Bool} {z o : ℕ}

/-- From 0 on there are `o` ones and then a zero, and before 0 there are `z` zeros and before them a
one. -/
structure Runs (f : ℤ → Bool) (z o : ℕ) : Prop where
  ones : ∀ i : ℤ, 0 ≤ i → i < o → f i = true
  stop : f o = false
  zeros : ∀ i : ℤ, -z ≤ i → i < 0 → f i = false
  start : f (-z - 1) = true

theorem periodic_gcd {a b : ℕ} (ha : Periodic f a) (hb : Periodic f b) : Periodic f (Nat.gcd a b : ℤ) := by
  rw [Nat.gcd_eq_gcd_ab]
  have hsum := (ha.int_mul (Nat.gcdA a b)).add_period (hb.int_mul (Nat.gcdB a b))
  rwa [Int.cast_id, Int.cast_id, Int.mul_comm _ (a : ℤ), Int.mul_comm _ (b : ℤ)] at hsum

theorem periodic_emod {n : ℕ} (h : Periodic f n) (i : ℤ) : f (i % n) = f i := by
  rw [Int.emod_def, Int.mul_comm]
  exact h.sub_int_mul_eq (i / n)

theorem Runs.le_period (h : Runs f z o) (hz : 0 < z) {g : ℕ} (hg : 0 < g) (hf : Periodic f g) :
    z + o ≤ g := by
  by_contra hlt
  by_cases hone : g ≤ o
  · -- the zero after the ones would be one of them
    have htrue := h.ones (o - g) (by omega) (by omega)
    rw [hf.sub_eq, h.stop] at htrue
    cases htrue
  · by_cases hzero : g ≤ z
    · -- the one before the zeros would be one of them
      have hfalse := h.zeros (-z - 1 + g) (by omega) (by omega)
      rw [hf, h.start] at hfalse
      cases hfalse
    · -- the first zero would be a one
      have hfalse := h.zeros (-z) (Int.le_refl _) (by omega)
      have htrue := h.ones (-z + g) (by omega) (by omega)
      rw [hf, hfalse] at htrue
      cases htrue

theorem Runs.dvd (h : Runs f z o) (hz : 0 < z) (hs : Periodic f (z + o : ℕ)) {n : ℕ} (hf : Periodic f n) :
    z + o ∣ n := by
  have hpos : 0 < Nat.gcd (z + o) n := Nat.gcd_pos_of_pos_left n (by omega)
  have hle := h.le_period hz hpos (periodic_gcd hs hf)
  have hdvd := Nat.gcd_dvd_left (z + o) n
  rw [← Nat.le_antisymm (Nat.le_of_dvd (by omega) hdvd) hle]
  exact Nat.gcd_dvd_right (z + o) n

theorem Runs.unique {z' o' : ℕ} (h : Runs f z o) (h' : Runs f z' o') : z = z' ∧ o = o' := by
  constructor
  · rcases Nat.lt_trichotomy z z' with hlt | heq | hgt
    · have hfalse := h'.zeros (-z - 1) (by omega) (by omega)
      rw [h.start] at hfalse
      cases hfalse
    · exact heq
    · have hfalse := h.zeros (-z' - 1) (by omega) (by omega)
      rw [h'.start] at hfalse
      cases hfalse
  · rcases Nat.lt_trichotomy o o' with hlt | heq | hgt
    · have htrue := h'.ones o (by omega) (by omega)
      rw [h.stop] at htrue
      cases htrue
    · exact heq
    · have htrue := h.ones o' (by omega) (by omega)
      rw [h'.stop] at htrue
      cases htrue

theorem Runs.eq_decide (h : Runs f z o) (hz : 0 < z) (hs : Periodic f (z + o : ℕ)) (i : ℤ) :
    f i = decide (i % (z + o : ℕ) < o) := by
  have hlow := Int.emod_nonneg i (b := ((z + o : ℕ) : ℤ)) (by omega)
  have hhigh := Int.emod_lt_of_pos i (b := ((z + o : ℕ) : ℤ)) (by omega)
  rw [← periodic_emod hs]
  by_cases hlt : i % (z + o : ℕ) < o
  · rw [h.ones _ hlow hlt, decide_eq_true hlt]
  · rw [decide_eq_false hlt, ← hs.sub_eq]
    exact h.zeros _ (by omega) (by omega)

/-- A run of `k` ones in an element of `e` bits, repeated, and `r` bits to the right. -/
def IsRun (f : ℤ → Bool) (e k r : ℕ) : Prop := ∀ i : ℤ, f i = decide ((i + r) % e < k)

variable {e k r : ℕ}

theorem IsRun.periodic (h : IsRun f e k r) : Periodic f e := by
  intro i
  rw [h, h, Int.add_right_comm, Int.add_emod_right]

theorem IsRun.emod_eq_zero (h : IsRun f e k r) (hke : k < e) (hfirst : f 0 = true)
    (hbefore : f (-1) = false) : (r : ℤ) % e = 0 := by
  rw [h, decide_eq_true_iff, Int.zero_add] at hfirst
  rw [h, decide_eq_false_iff_not, Int.add_comm, ← Int.emod_add_emod] at hbefore
  have hlow := Int.emod_nonneg r (b := (e : ℤ)) (by omega)
  by_contra hne
  rw [Int.emod_eq_of_lt (by omega) (by omega)] at hbefore
  omega

theorem IsRun.runs (h : IsRun f e k r) (hk : 0 < k) (hke : k < e) (hr : (r : ℤ) % e = 0) :
    Runs f (e - k) k := by
  have hf : ∀ i : ℤ, f i = decide (i % e < k) := by
    intro i
    rw [h, ← Int.add_emod_emod, hr, Int.add_zero]
  constructor
  · intro i hlow hhigh
    rw [hf, Int.emod_eq_of_lt hlow (by omega)]
    exact decide_eq_true hhigh
  · rw [hf, Int.emod_eq_of_lt (by omega) (by omega)]
    exact decide_eq_false (by omega)
  · intro i hlow hhigh
    rw [hf, ← Int.add_emod_right, Int.emod_eq_of_lt (by omega) (by omega)]
    exact decide_eq_false (by omega)
  · rw [hf, ← Int.add_emod_right, Int.emod_eq_of_lt (by omega) (by omega)]
    exact decide_eq_true (by omega)

end RotatedRun
