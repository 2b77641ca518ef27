import Mathlib.Data.List.Sort
import Mathlib.Order.Lex

/-!
A window in which stamped elements are held, and released in the order of their times up to a bound. Elements of one
time have the order in which they came.
-/

namespace ReorderWindow

variable {T : Type*} [LinearOrder T]

/-- A time, and a number that grows with each element. -/
abbrev Stamp (T : Type*) := T × Nat

def le (x y : Stamp T) : Bool := decide (x.1 < y.1 ∨ x.1 = y.1 ∧ x.2 ≤ y.2)

structure Window (T : Type*) where
  out : List (Stamp T) := []
  held : List (Stamp T) := []

namespace Window

def add (w : Window T) (x : Stamp T) : Window T := { w with held := w.held ++ [x] }

def release (w : Window T) (bound : T) : Window T :=
  let sorted := w.held.mergeSort le
  ⟨w.out ++ sorted.takeWhile (·.1 ≤ bound), sorted.dropWhile (·.1 ≤ bound)⟩

end Window

/-- An element and a later one have not changed places, unless their times say so. -/
def Kept (x y : Stamp T) : Prop := x.1 < y.1 ∨ x.2 ≤ y.2

/-- What is out or held is what has come, and what is out has kept its order, among itself and with what is held. -/
structure Keeps (come : List (Stamp T)) (w : Window T) : Prop where
  perm : (w.out ++ w.held).Perm come
  kept : w.out.Pairwise Kept
  across : ∀ x ∈ w.out, ∀ y ∈ w.held, Kept x y

variable {come : List (Stamp T)} {w : Window T} {x y z : Stamp T}

theorem le_iff : le x y = true ↔ x.1 < y.1 ∨ x.1 = y.1 ∧ x.2 ≤ y.2 := decide_eq_true_iff

theorem le_trans' (hxy : le x y = true) (hyz : le y z = true) : le x z = true := by
  rw [le_iff] at hxy hyz ⊢
  rcases hxy with hxy | ⟨hxy, hseq⟩
  · rcases hyz with hyz | ⟨hyz, -⟩
    · exact Or.inl (hxy.trans hyz)
    · exact Or.inl (hyz ▸ hxy)
  · rcases hyz with hyz | ⟨hyz, hseq'⟩
    · exact Or.inl (hxy ▸ hyz)
    · exact Or.inr ⟨hxy.trans hyz, Nat.le_trans hseq hseq'⟩

theorem le_total' (x y : Stamp T) : (le x y || le y x) = true := by
  rw [Bool.or_eq_true, le_iff, le_iff]
  rcases lt_trichotomy x.1 y.1 with hlt | heq | hgt
  · exact Or.inl (Or.inl hlt)
  · rcases Nat.le_total x.2 y.2 with hle | hle
    · exact Or.inl (Or.inr ⟨heq, hle⟩)
    · exact Or.inr (Or.inr ⟨heq.symm, hle⟩)
  · exact Or.inr (Or.inl hgt)

theorem kept_of_le (h : le x y = true) : Kept x y := (le_iff.1 h).imp id And.right

theorem sorted_pairwise (l : List (Stamp T)) : (l.mergeSort le).Pairwise Kept := by
  have hsorted : (l.mergeSort le).Pairwise fun x y => le x y = true :=
    @List.pairwise_mergeSort _ le (fun _ _ _ => le_trans') le_total' l
  exact hsorted.imp fun {_ _} h => kept_of_le h

theorem keeps_empty : Keeps ([] : List (Stamp T)) {} := ⟨.refl _, .nil, nofun⟩

theorem keeps_add (h : Keeps come w) (hx : ∀ y ∈ come, y.2 ≤ x.2) : Keeps (come ++ [x]) (w.add x) where
  perm := by
    rw [Window.add, ← List.append_assoc]
    exact h.perm.append_right [x]
  kept := h.kept
  across := by
    intro y hy z hz
    rcases List.mem_append.1 hz with hz | hz
    · exact h.across y hy z hz
    · rw [List.mem_singleton.1 hz]
      exact Or.inr (hx y (h.perm.subset (List.mem_append_left _ hy)))

theorem keeps_release (h : Keeps come w) (bound : T) : Keeps come (w.release bound) := by
  have hsplit : (w.held.mergeSort le).takeWhile (·.1 ≤ bound) ++ (w.held.mergeSort le).dropWhile (·.1 ≤ bound) =
      w.held.mergeSort le := List.takeWhile_append_dropWhile
  have hsorted := sorted_pairwise w.held
  rw [← hsplit, List.pairwise_append] at hsorted
  have hmem : ∀ y ∈ (w.held.mergeSort le).takeWhile (·.1 ≤ bound) ++ (w.held.mergeSort le).dropWhile (·.1 ≤ bound),
      y ∈ w.held := by
    rw [hsplit]
    exact fun y hy => (List.mergeSort_perm _ _).subset hy
  refine ⟨?_, ?_, ?_⟩
  · rw [Window.release, List.append_assoc, hsplit]
    exact ((List.mergeSort_perm _ _).append_left _).trans h.perm
  · rw [Window.release, List.pairwise_append]
    exact ⟨h.kept, hsorted.1, fun y hy z hz => h.across y hy z (hmem z (List.mem_append_left _ hz))⟩
  · intro y hy z hz
    rcases List.mem_append.1 hy with hy | hy
    · exact h.across y hy z (hmem z (List.mem_append_right _ hz))
    · exact hsorted.2.2 y hy z hz

omit [LinearOrder T] in
theorem rel_of_seq {R : Stamp T → Stamp T → Prop} {l : List (Stamp T)} (h : l.Pairwise fun x y => R x y ∧ x.2 < y.2)
    (hx : x ∈ l) (hy : y ∈ l) (hle : x.2 ≤ y.2) : x = y ∨ R x y ∧ x.2 < y.2 := by
  obtain ⟨i, hi, rfl⟩ := List.mem_iff_getElem.1 hx
  obtain ⟨j, hj, rfl⟩ := List.mem_iff_getElem.1 hy
  rcases Nat.lt_trichotomy i j with hij | rfl | hji
  · exact Or.inr (List.pairwise_iff_getElem.1 h i j hi hj hij)
  · exact Or.inl rfl
  · exact absurd (List.pairwise_iff_getElem.1 h j i hj hi hji).2 (Nat.not_lt.2 hle)

theorem Keeps.filter_eq (h : Keeps come w) (hall : w.held = []) (hseq : come.Pairwise fun x y => x.2 < y.2)
    (p : Stamp T → Bool) (hp : (come.filter p).Pairwise fun x y => x.1 ≤ y.1) : w.out.filter p = come.filter p := by
  have hperm : (w.out.filter p).Perm (come.filter p) := by
    have hout := h.perm
    rw [hall, List.append_nil] at hout
    exact hout.filter p
  have hcome : (come.filter p).Pairwise fun x y => x.1 ≤ y.1 ∧ x.2 < y.2 := hp.and (hseq.filter p)
  have hout : (w.out.filter p).Pairwise fun x y => x.2 ≤ y.2 := by
    refine (h.kept.filter p).imp_of_mem fun {x y} hx hy hxy => ?_
    by_contra hgt
    rcases rel_of_seq hcome (hperm.subset hy) (hperm.subset hx) (Nat.le_of_not_le hgt) with rfl | hyx
    · exact hgt (Nat.le_refl _)
    · exact hxy.elim (fun hlt => absurd hlt (not_lt.2 hyx.1)) hgt
  refine hperm.eq_of_pairwise (fun x y hx hy hxy hyx => ?_) hout (hcome.imp fun h => Nat.le_of_lt h.2)
  exact (rel_of_seq hcome (hperm.subset hx) hy hxy).resolve_right fun h => Nat.not_lt.2 hyx h.2

end ReorderWindow
