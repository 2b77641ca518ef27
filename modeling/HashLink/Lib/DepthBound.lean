import Mathlib.Data.Set.Finite.Lattice

/-!
Recursion with a bound on its depth. A step computes the value of an item from the values of the items it needs; some
depth gives a value exactly when no item that is needed needs itself and every step succeeds.
-/

namespace DepthBound

variable {ι β : Type}

/-- The value of an item, with a bound on how deep it follows what it needs. -/
def eval (step : (ι → Option β) → ι → Option β) : Nat → ι → Option β
  | 0, _ => none
  | depth + 1, i => step (eval step depth) i

/-- A step looks at the values of the items it needs, and fails without one of them. -/
structure Uses (step : (ι → Option β) → ι → Option β) (needs : ι → ι → Prop) : Prop where
  demands : ∀ {f i b j}, step f i = some b → needs i j → (f j).isSome
  congr : ∀ {f g i b}, step f i = some b → (∀ j, needs i j → g j = f j) → step g i = some b

section Depths

variable {step : (ι → Option β) → ι → Option β} {needs : ι → ι → Prop} {i j : ι} {b : β} {d k : Nat}

theorem Uses.mono (h : Uses step needs) (hle : d ≤ k) (heval : eval step d i = some b) :
    eval step k i = some b := by
  induction d generalizing i b k with
  | zero => cases heval
  | succ d ih =>
    obtain ⟨k, rfl⟩ : ∃ n, k = n + 1 := ⟨k - 1, by omega⟩
    refine h.congr heval fun j hj => ?_
    obtain ⟨c, hc⟩ := Option.isSome_iff_exists.1 (h.demands heval hj)
    rw [hc]
    exact ih (by omega) hc

theorem Uses.unique (h : Uses step needs) {c : β} (heval : eval step d i = some b)
    (heval' : eval step k i = some c) : b = c := by
  have hb := h.mono (Nat.le_max_left d k) heval
  have hc := h.mono (Nat.le_max_right d k) heval'
  exact Option.some.inj (hb.symm.trans hc)

theorem Uses.below (h : Uses step needs) (heval : (eval step d i).isSome) (hneeds : Relation.TransGen needs i j) :
    ∃ k < d, (eval step k j).isSome := by
  have hone : ∀ {i j d}, (eval step d i).isSome → needs i j → ∃ k < d, (eval step k j).isSome := by
    intro i j d heval hneeds
    cases d with
    | zero => cases heval
    | succ d =>
      obtain ⟨b, hb⟩ := Option.isSome_iff_exists.1 heval
      exact ⟨d, Nat.lt_succ_self d, h.demands hb hneeds⟩
  induction hneeds with
  | single hneeds => exact hone heval hneeds
  | tail _ hneeds ih =>
    obtain ⟨k, hk, hsome⟩ := ih
    obtain ⟨k', hk', hsome'⟩ := hone hsome hneeds
    exact ⟨k', hk'.trans hk, hsome'⟩

theorem Uses.reaches (h : Uses step needs) (heval : (eval step d i).isSome)
    (hneeds : Relation.ReflTransGen needs i j) : ∃ k, (eval step k j).isSome := by
  rcases Relation.reflTransGen_iff_eq_or_transGen.1 hneeds with rfl | hneeds
  · exact ⟨d, heval⟩
  · obtain ⟨k, -, hsome⟩ := h.below heval hneeds
    exact ⟨k, hsome⟩

theorem Uses.acyclic (h : Uses step needs) (heval : (eval step d i).isSome) : ¬Relation.TransGen needs i i := by
  intro hcycle
  induction d using Nat.strongRecOn with
  | ind d ih =>
    obtain ⟨k, hk, hsome⟩ := h.below heval hcycle
    exact ih k hk hsome

theorem Uses.together (h : Uses step needs) {s : Set ι} (hfinite : s.Finite)
    (hs : ∀ j ∈ s, ∃ d, (eval step d j).isSome) : ∃ d, ∀ j ∈ s, (eval step d j).isSome := by
  choose! depth hdepth using hs
  obtain ⟨d, hd⟩ := (hfinite.image depth).bddAbove
  refine ⟨d, fun j hj => ?_⟩
  obtain ⟨b, hb⟩ := Option.isSome_iff_exists.1 (hdepth j hj)
  exact Option.isSome_iff_exists.2 ⟨b, h.mono (hd (Set.mem_image_of_mem depth hj)) hb⟩

theorem Uses.terminates (h : Uses step needs) (hfinite : {j | Relation.ReflTransGen needs i j}.Finite)
    (hacyclic : ∀ j, Relation.ReflTransGen needs i j → ¬Relation.TransGen needs j j)
    (hstep : ∀ j, Relation.ReflTransGen needs i j → ∀ d, (∀ k, needs j k → (eval step d k).isSome) →
      (step (eval step d) j).isSome) : ∃ d, (eval step d i).isSome := by
  let Reached := {j // j ∈ {j | Relation.ReflTransGen needs i j}}
  have : Finite Reached := hfinite.to_subtype
  let below : Reached → Reached → Prop := fun j k => Relation.TransGen needs k.1 j.1
  have : IsTrans Reached below := ⟨fun _ _ _ hjk hkl => hkl.trans hjk⟩
  have : Std.Irrefl below := ⟨fun j => hacyclic j.1 j.2⟩
  have hall : ∀ j : Reached, ∃ d, (eval step d j.1).isSome := by
    intro j
    induction j using (Finite.wellFounded_of_trans_of_irrefl below).induction with
    | _ j ih =>
      have hneeds : {k | needs j.1 k}.Finite := hfinite.subset fun k hk => j.2.tail hk
      obtain ⟨d, hd⟩ := h.together hneeds fun k hk => ih ⟨k, j.2.tail hk⟩ (.single hk)
      exact ⟨d + 1, hstep j.1 j.2 d hd⟩
  exact hall ⟨i, .refl⟩

end Depths

end DepthBound
