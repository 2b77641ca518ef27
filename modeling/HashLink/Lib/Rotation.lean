import Mathlib.Data.Nat.ModEq

/-! The cycles of a rotation of `n` places by `s`. From a place the jumps by `s` come back after `n / gcd n s` of them,
and lead to each place with the same remainder by `gcd n s` once. -/

namespace Rotation

/-- The place after `j` jumps from `a`. -/
def place (n s a j : Nat) : Nat := (a + j * s) % n

variable {n s a i j : Nat}

theorem place_zero (ha : a < n) : place n s a 0 = a := by
  rw [place, Nat.zero_mul, Nat.add_zero, Nat.mod_eq_of_lt ha]

theorem place_succ (n s a j : Nat) : place n s a (j + 1) = (place n s a j + s) % n := by
  rw [place, place, Nat.mod_add_mod, Nat.succ_mul, Nat.add_assoc]

theorem place_lt (hn : 0 < n) : place n s a j < n := Nat.mod_lt _ hn

def cycle (n s : Nat) : Nat := n / Nat.gcd n s

theorem gcd_mul_cycle (n s : Nat) : Nat.gcd n s * cycle n s = n := Nat.mul_div_cancel' (Nat.gcd_dvd_left n s)

theorem cycle_pos (hn : 0 < n) : 0 < cycle n s :=
  Nat.div_pos (Nat.gcd_le_left s hn) (Nat.gcd_pos_of_pos_left s hn)

theorem dvd_mul_iff (hn : 0 < n) : n ∣ j * s ↔ cycle n s ∣ j := by
  have hg := Nat.gcd_pos_of_pos_left s hn
  have hs : Nat.gcd n s * (s / Nat.gcd n s) = s := Nat.mul_div_cancel' (Nat.gcd_dvd_right n s)
  have hcoprime : Nat.Coprime (cycle n s) (s / Nat.gcd n s) := Nat.coprime_div_gcd_div_gcd hg
  calc n ∣ j * s ↔ Nat.gcd n s * cycle n s ∣ Nat.gcd n s * (j * (s / Nat.gcd n s)) := by
        rw [gcd_mul_cycle, Nat.mul_left_comm, hs]
    _ ↔ cycle n s ∣ j * (s / Nat.gcd n s) := Nat.mul_dvd_mul_iff_left hg
    _ ↔ cycle n s ∣ j := ⟨hcoprime.dvd_of_dvd_mul_right, fun h => Dvd.dvd.mul_right h _⟩

theorem place_injective (hn : 0 < n) (hi : i < cycle n s) (hj : j < cycle n s)
    (h : place n s a i = place n s a j) : i = j := by
  wlog hle : i ≤ j generalizing i j with hother
  · exact (hother hj hi h.symm (by omega)).symm
  have hmod : a + i * s ≡ a + j * s [MOD n] := h
  have hdvd := (Nat.modEq_iff_dvd' (Nat.mul_le_mul_right s hle)).1 (Nat.ModEq.add_left_cancel' a hmod)
  rw [← Nat.sub_mul, dvd_mul_iff hn] at hdvd
  have hzero := Nat.eq_zero_of_dvd_of_lt hdvd (by omega)
  omega

theorem place_cycle (hn : 0 < n) (ha : a < n) : place n s a (cycle n s) = a := by
  have hdvd : n ∣ cycle n s * s := (dvd_mul_iff hn).2 (Nat.dvd_refl _)
  rw [place, Nat.add_mod, Nat.mod_eq_zero_of_dvd hdvd, Nat.add_zero, Nat.mod_mod, Nat.mod_eq_of_lt ha]

theorem place_mod_gcd (n s a j : Nat) : place n s a j % Nat.gcd n s = a % Nat.gcd n s := by
  rw [place, Nat.mod_mod_of_dvd _ (Nat.gcd_dvd_left n s), Nat.add_mod,
    Nat.mod_eq_zero_of_dvd (Dvd.dvd.mul_left (Nat.gcd_dvd_right n s) j), Nat.add_zero, Nat.mod_mod]

theorem place_mod_cycle (hn : 0 < n) : place n s a (j % cycle n s) = place n s a j := by
  have hdvd : n ∣ cycle n s * (j / cycle n s) * s := (dvd_mul_iff hn).2 (Nat.dvd_mul_right _ _)
  have hsplit : j * s = j % cycle n s * s + cycle n s * (j / cycle n s) * s := by
    rw [← Nat.add_mul, Nat.mod_add_div]
  rw [place, place, hsplit, ← Nat.add_assoc, Nat.add_mod _ (cycle n s * (j / cycle n s) * s),
    Nat.mod_eq_zero_of_dvd hdvd, Nat.add_zero, Nat.mod_mod]

theorem exists_mul_modEq_gcd (hn : 0 < n) : ∃ m, m * s ≡ Nat.gcd n s [MOD n] := by
  by_cases hlt : Nat.gcd s n < n
  · obtain ⟨m, -, hm⟩ := Nat.exists_mul_mod_eq_gcd hlt
    refine ⟨m, ?_⟩
    rw [Nat.gcd_comm, Nat.mul_comm]
    exact hm.trans (Nat.mod_eq_of_lt hlt).symm
  · have heq : Nat.gcd n s = n := Nat.le_antisymm (Nat.gcd_le_left s hn) (by rw [Nat.gcd_comm]; omega)
    refine ⟨0, ?_⟩
    rw [heq, Nat.zero_mul]
    exact (Nat.mod_self n).symm

theorem exists_place (hn : 0 < n) (ha : a < n) (hi : i < n) (hmod : i % Nat.gcd n s = a % Nat.gcd n s) :
    ∃ j < cycle n s, place n s a j = i := by
  obtain ⟨m, hm⟩ := exists_mul_modEq_gcd (n := n) (s := s) hn
  have hdvd : Nat.gcd n s ∣ i + n - a := by
    refine (Nat.modEq_iff_dvd' (by omega)).1 (Nat.ModEq.symm ?_)
    have hn : (i + n) % Nat.gcd n s = i % Nat.gcd n s := by
      rw [Nat.add_mod, Nat.mod_eq_zero_of_dvd (Nat.gcd_dvd_left n s), Nat.add_zero, Nat.mod_mod]
    exact hn.trans hmod
  obtain ⟨t, ht⟩ := hdvd
  have hjumps : place n s a (t * m) = i := by
    have hmod' : a + t * m * s ≡ i [MOD n] := by
      calc a + t * m * s ≡ a + t * Nat.gcd n s [MOD n] := by
            rw [Nat.mul_assoc]
            exact Nat.ModEq.add_left a (Nat.ModEq.mul_left t hm)
        _ = i + n := by rw [Nat.mul_comm, ← ht]; omega
        _ ≡ i [MOD n] := Nat.add_mod_right i n
    exact Eq.trans hmod' (Nat.mod_eq_of_lt hi)
  exact ⟨t * m % cycle n s, Nat.mod_lt _ (cycle_pos hn), (place_mod_cycle hn).trans hjumps⟩

end Rotation
