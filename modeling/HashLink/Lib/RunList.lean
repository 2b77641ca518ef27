import Mathlib.Data.List.Pairwise
import Mathlib.Data.List.TakeWhile
import Mathlib.Tactic.Common

/-! Sets of positions kept as a list of runs that grows at its end: a range that touches the last run is taken in by
it. -/

/-- The positions from `pos` on, `count` of them. -/
structure Run where
  pos : Nat
  count : Nat
  deriving DecidableEq, Repr

namespace Run

def stop (r : Run) : Nat := r.pos + r.count

def Has (r : Run) (x : Nat) : Prop := r.pos ≤ x ∧ x < r.stop

instance (r : Run) (x : Nat) : Decidable (r.Has x) := inferInstanceAs (Decidable (_ ∧ _))

def Before (a b : Run) : Prop := a.stop ≤ b.pos

/-- Neither run reaches into the other. An empty run inside another one is not apart from it. -/
def Apart (a b : Run) : Prop := a.Before b ∨ b.Before a

theorem Apart.symm {a b : Run} (h : a.Apart b) : b.Apart a := Or.symm h

theorem Apart.disjoint {a b : Run} (h : a.Apart b) (x : Nat) : ¬(a.Has x ∧ b.Has x) := by
  simp only [Apart, Before, Has, stop] at *
  omega

theorem Apart.part {a b c : Run} (h : a.Apart b) (hpos : b.pos ≤ c.pos) (hstop : c.stop ≤ b.stop) :
    a.Apart c := by
  simp only [Apart, Before, stop] at *
  omega

end Run

namespace RunList

def Covers (runs : List Run) (x : Nat) : Prop := ∃ r ∈ runs, r.Has x

theorem covers_nil (x : Nat) : ¬Covers [] x := by
  rintro ⟨r, hr, -⟩
  simp at hr

theorem covers_cons {r : Run} {runs : List Run} {x : Nat} :
    Covers (r :: runs) x ↔ r.Has x ∨ Covers runs x := by
  simp [Covers]

theorem covers_append {before after : List Run} {x : Nat} :
    Covers (before ++ after) x ↔ Covers before x ∨ Covers after x := by
  simp only [Covers, List.mem_append, or_and_right, exists_or]

/-- Adds a range after the last run, which takes it in if the two touch. -/
def push (runs : List Run) (pos count : Nat) : List Run :=
  match runs.getLast? with
  | some c =>
    if c.stop = pos then runs.dropLast ++ [⟨c.pos, c.count + count⟩] else runs ++ [⟨pos, count⟩]
  | none => [⟨pos, count⟩]

section Push

variable {runs : List Run} {pos count : Nat}

theorem push_eq (runs : List Run) (pos count : Nat) :
    push runs pos count = runs ++ [⟨pos, count⟩] ∨ ∃ left c, runs = left ++ [c] ∧ c.stop = pos ∧
        push runs pos count = left ++ [⟨c.pos, c.count + count⟩] := by
  unfold push
  cases hlast : runs.getLast? with
  | none => exact .inl (by rw [List.getLast?_eq_none_iff.mp hlast]; rfl)
  | some c =>
    obtain ⟨left, rfl⟩ := List.getLast?_eq_some_iff.mp hlast
    by_cases hstop : c.stop = pos
    · exact .inr ⟨left, c, rfl, hstop, by simp [hstop]⟩
    · exact .inl (by simp [hstop])

theorem push_sorted (hruns : runs.Pairwise Run.Before) (hstop : ∀ r ∈ runs, r.stop ≤ pos) :
    (push runs pos count).Pairwise Run.Before := by
  rcases push_eq runs pos count with heq | ⟨left, c, rfl, -, heq⟩
  · rw [heq]
    refine List.pairwise_append.mpr ⟨hruns, List.pairwise_singleton _ _, fun a ha b hb => ?_⟩
    obtain rfl := List.mem_singleton.mp hb
    exact hstop a ha
  · rw [heq]
    obtain ⟨hleft, -, hcross⟩ := List.pairwise_append.mp hruns
    refine List.pairwise_append.mpr ⟨hleft, List.pairwise_singleton _ _, fun a ha b hb => ?_⟩
    obtain rfl := List.mem_singleton.mp hb
    exact hcross a ha c (List.mem_singleton.mpr rfl)

theorem forall_push {P : Run → Prop} (hruns : ∀ r ∈ runs, P r) (hrange : P ⟨pos, count⟩)
    (hjoin : ∀ c, P c → c.stop = pos → P ⟨c.pos, c.count + count⟩) :
    ∀ r ∈ push runs pos count, P r := by
  intro r hr
  rcases push_eq runs pos count with heq | ⟨left, c, rfl, hstop, heq⟩
  · rw [heq] at hr
    rcases List.mem_append.mp hr with hr | hr
    · exact hruns r hr
    · obtain rfl := List.mem_singleton.mp hr
      exact hrange
  · rw [heq] at hr
    rcases List.mem_append.mp hr with hr | hr
    · exact hruns r (List.mem_append_left _ hr)
    · obtain rfl := List.mem_singleton.mp hr
      exact hjoin c (hruns c (by simp)) hstop

end Push

section Covering

variable {runs : List Run} {pos count : Nat}

theorem covers_push {x : Nat} (h : Covers runs x ∨ (Run.mk pos count).Has x) :
    Covers (push runs pos count) x := by
  rcases push_eq runs pos count with heq | ⟨left, c, rfl, hstop, heq⟩
  · rw [heq, covers_append, covers_cons]
    exact h.imp_right .inl
  · rw [heq, covers_append, covers_cons]
    rcases h with h | h
    · rcases (covers_append).mp h with h | h
      · exact .inl h
      · right
        left
        rcases (covers_cons).mp h with h | h
        · simp only [Run.Has, Run.stop] at h ⊢
          omega
        · exact absurd h (covers_nil x)
    · right
      left
      simp only [Run.Has, Run.stop] at h hstop ⊢
      omega

def Gapped (runs : List Run) : Prop := runs.Pairwise fun a b => a.stop < b.pos

theorem Gapped.push (h : Gapped runs) (hstop : ∀ r ∈ runs, r.stop ≤ pos) :
    Gapped (push runs pos count) := by
  unfold RunList.push
  cases hlast : runs.getLast? with
  | none => exact List.pairwise_singleton _ _
  | some c =>
    obtain ⟨left, rfl⟩ := List.getLast?_eq_some_iff.mp hlast
    obtain ⟨hleft, -, hcross⟩ := List.pairwise_append.mp h
    dsimp only
    split
    · rw [List.dropLast_concat]
      refine List.pairwise_append.mpr ⟨hleft, List.pairwise_singleton _ _, fun a ha b hb => ?_⟩
      obtain rfl := List.mem_singleton.mp hb
      exact hcross a ha c (List.mem_singleton.mpr rfl)
    · rename_i hne
      refine List.pairwise_append.mpr ⟨h, List.pairwise_singleton _ _, fun a ha b hb => ?_⟩
      obtain rfl := List.mem_singleton.mp hb
      show a.stop < pos
      rcases List.mem_append.mp ha with ha | ha
      · have hbefore := hcross a ha c (List.mem_singleton.mpr rfl)
        have hle := hstop c (by simp)
        simp only [Run.stop] at hbefore hle ⊢
        omega
      · obtain rfl := List.mem_singleton.mp ha
        exact Nat.lt_of_le_of_ne (hstop a (by simp)) hne

theorem Gapped.between (h : Gapped runs) {a b : Run} (ha : a ∈ runs) (hb : b ∈ runs) :
    a = b ∨ a.stop < b.pos ∨ b.stop < a.pos := by
  by_cases hab : a = b
  · exact .inl hab
  · have hsymm : Std.Symm fun a b : Run => a.stop < b.pos ∨ b.stop < a.pos := ⟨fun _ _ => Or.symm⟩
    have hpair : runs.Pairwise fun a b => a.stop < b.pos ∨ b.stop < a.pos := List.Pairwise.imp .inl h
    exact .inr (hpair.forall ha hb hab)

theorem Gapped.stretch (h : Gapped runs) {x n : Nat}
    (hcovers : ∀ y, x ≤ y → y < x + (n + 1) → Covers runs y) : ∃ r ∈ runs, r.pos ≤ x ∧ x + n < r.stop := by
  induction n with
  | zero =>
    obtain ⟨r, hr, hhas⟩ := hcovers x (Nat.le_refl x) (by omega)
    exact ⟨r, hr, hhas⟩
  | succ n ih =>
    obtain ⟨r, hr, hpos, hstop⟩ := ih fun y hle hlt => hcovers y hle (by omega)
    obtain ⟨t, ht, hhas⟩ := hcovers (x + (n + 1)) (by omega) (by omega)
    refine ⟨r, hr, hpos, ?_⟩
    simp only [Run.Has] at hhas
    rcases h.between hr ht with rfl | hbefore | hafter
    · exact hhas.2
    · omega
    · omega

end Covering

end RunList
