import Mathlib.Data.List.Basic
import Mathlib.Data.List.Pairwise

/-! Sorting with a comparison that gives a number, as that of C does: what a sorted list is, and when two lists have the
elements that compare equal in the same order. -/

namespace StableSort

variable {T : Type} (cmp : T → T → Int)

/-- The comparison is that of an order in which different elements may be equal, and any two can be compared. -/
structure TotalPreorder : Prop where
  symm : ∀ x y, cmp x y < 0 ↔ 0 < cmp y x
  trans : ∀ x y z, cmp x y ≤ 0 → cmp y z ≤ 0 → cmp x z ≤ 0

def Ordered (l : List T) : Prop := l.Pairwise fun x y => cmp x y ≤ 0

/-- The elements that compare equal to `x`, in their order. -/
def equals (x : T) (l : List T) : List T := l.filter fun y => cmp x y = 0

/-- Elements that compare equal have the same order in both lists. -/
def SameOrder (l l' : List T) : Prop := ∀ x, equals cmp x l = equals cmp x l'

variable {cmp}

namespace TotalPreorder

variable {x y z : T}

theorem refl (h : TotalPreorder cmp) (x : T) : cmp x x = 0 := by
  have hsymm := h.symm x x
  omega

theorem le_iff (h : TotalPreorder cmp) : cmp x y ≤ 0 ↔ ¬cmp y x < 0 := by
  have hsymm := h.symm y x
  omega

theorem le_of_lt (_ : TotalPreorder cmp) (hlt : cmp x y < 0) : cmp x y ≤ 0 := Int.le_of_lt hlt

theorem lt_of_lt_of_le (h : TotalPreorder cmp) (hxy : cmp x y < 0) (hyz : cmp y z ≤ 0) : cmp x z < 0 := by
  by_contra hnot
  have hyx := h.trans y z x hyz (h.le_iff.2 hnot)
  exact absurd hxy (h.le_iff.1 hyx)

theorem lt_of_le_of_lt (h : TotalPreorder cmp) (hxy : cmp x y ≤ 0) (hyz : cmp y z < 0) : cmp x z < 0 := by
  by_contra hnot
  have hzy := h.trans z x y (h.le_iff.2 hnot) hxy
  exact absurd hyz (h.le_iff.1 hzy)

theorem eq_comm (h : TotalPreorder cmp) : cmp x y = 0 ↔ cmp y x = 0 := by
  have hxy := h.symm x y
  have hyx := h.symm y x
  omega

theorem eq_trans (h : TotalPreorder cmp) (hxy : cmp x y = 0) (hyz : cmp y z = 0) : cmp x z = 0 := by
  have hxz := h.trans x y z (by omega) (by omega)
  have hzx := h.trans z y x (Int.le_of_eq (h.eq_comm.1 hyz)) (Int.le_of_eq (h.eq_comm.1 hxy))
  have hsymm := h.symm x z
  omega

end TotalPreorder

namespace SameOrder

variable {l l' l'' m m' : List T}

theorem refl (l : List T) : SameOrder cmp l l := fun _ => rfl

theorem trans (h : SameOrder cmp l l') (h' : SameOrder cmp l' l'') : SameOrder cmp l l'' := fun x => (h x).trans (h' x)

theorem append (h : SameOrder cmp l l') (h' : SameOrder cmp m m') : SameOrder cmp (l ++ m) (l' ++ m') := fun x => by
  rw [equals, equals, List.filter_append, List.filter_append]
  exact congrArg₂ (· ++ ·) (h x) (h' x)

theorem exchange (h : TotalPreorder cmp) (hne : ∀ x ∈ l, ∀ y ∈ m, cmp x y ≠ 0) : SameOrder cmp (l ++ m) (m ++ l) := by
  intro x
  rw [equals, equals, List.filter_append, List.filter_append]
  by_cases hx : ∃ y ∈ l, cmp x y = 0
  · obtain ⟨y, hy, hxy⟩ := hx
    have hnone : m.filter (fun z => decide (cmp x z = 0)) = [] := by
      refine List.filter_eq_nil_iff.2 fun z hz hxz => ?_
      exact hne y hy z hz (h.eq_trans (h.eq_comm.1 hxy) (of_decide_eq_true hxz))
    rw [hnone, List.append_nil, List.nil_append]
  · have hnone : l.filter (fun z => decide (cmp x z = 0)) = [] :=
      List.filter_eq_nil_iff.2 fun z hz hxz => hx ⟨z, hz, of_decide_eq_true hxz⟩
    rw [hnone, List.append_nil, List.nil_append]

end SameOrder

variable {l l' m m' : List T}

theorem Ordered.append (hl : Ordered cmp l) (hm : Ordered cmp m) (h : ∀ x ∈ l, ∀ y ∈ m, cmp x y ≤ 0) :
    Ordered cmp (l ++ m) := List.pairwise_append.2 ⟨hl, hm, h⟩

variable (cmp) in
/-- A list with the elements of another one, sorted when the comparison is that of an order. -/
structure Sorts (l l' : List T) : Prop where
  perm : l.Perm l'
  ordered : TotalPreorder cmp → Ordered cmp l'
  order : TotalPreorder cmp → SameOrder cmp l l'

variable (cmp) in
/-- A list that two sorted ones are merged to. -/
structure Merges (l m l' : List T) : Prop where
  perm : (l ++ m).Perm l'
  ordered : TotalPreorder cmp → Ordered cmp l → Ordered cmp m → Ordered cmp l'
  order : TotalPreorder cmp → Ordered cmp l → Ordered cmp m → SameOrder cmp (l ++ m) l'

theorem Sorts.merge (hl : Sorts cmp l l') (hm : Sorts cmp m m') {r : List T} (h : Merges cmp l' m' r) :
    Sorts cmp (l ++ m) r where
  perm := (hl.perm.append hm.perm).trans h.perm
  ordered ho := h.ordered ho (hl.ordered ho) (hm.ordered ho)
  order ho := ((hl.order ho).append (hm.order ho)).trans (h.order ho (hl.ordered ho) (hm.ordered ho))

theorem merges_nil_left (m : List T) : Merges cmp [] m m := ⟨.refl m, fun _ _ h => h, fun _ _ _ => .refl m⟩

theorem merges_nil_right (l : List T) : Merges cmp l [] l := by
  refine ⟨?_, fun _ h _ => h, fun _ _ _ => ?_⟩ <;> rw [List.append_nil]
  exact .refl l

/-- Lists are merged in parts: the first parts and the last parts, when what is exchanged between is in strict order. -/
theorem Merges.cut {l₁ l₂ m₁ m₂ r₁ r₂ : List T} (h₁ : Merges cmp l₁ m₁ r₁) (h₂ : Merges cmp l₂ m₂ r₂)
    (hcut : TotalPreorder cmp → Ordered cmp (l₁ ++ l₂) → Ordered cmp (m₁ ++ m₂) →
      (∀ x ∈ l₁, ∀ y ∈ m₂, cmp x y ≤ 0) ∧ ∀ x ∈ m₁, ∀ y ∈ l₂, cmp x y < 0) :
    Merges cmp (l₁ ++ l₂) (m₁ ++ m₂) (r₁ ++ r₂) where
  perm := by
    have hmiddle : (l₁ ++ l₂ ++ (m₁ ++ m₂)).Perm (l₁ ++ m₁ ++ (l₂ ++ m₂)) := by
      rw [List.append_assoc, List.append_assoc, ← List.append_assoc l₂, ← List.append_assoc m₁]
      exact (List.perm_append_comm.append_right m₂).append_left l₁
    exact hmiddle.trans (h₁.perm.append h₂.perm)
  ordered ho hl hm := by
    obtain ⟨hcross, hstrict⟩ := hcut ho hl hm
    obtain ⟨hl₁, hl₂, hl₁₂⟩ := List.pairwise_append.1 hl
    obtain ⟨hm₁, hm₂, hm₁₂⟩ := List.pairwise_append.1 hm
    refine (h₁.ordered ho hl₁ hm₁).append (h₂.ordered ho hl₂ hm₂) fun x hx y hy => ?_
    rcases List.mem_append.1 (h₁.perm.mem_iff.2 hx) with hx | hx <;>
      rcases List.mem_append.1 (h₂.perm.mem_iff.2 hy) with hy | hy
    · exact hl₁₂ x hx y hy
    · exact hcross x hx y hy
    · exact ho.le_of_lt (hstrict x hx y hy)
    · exact hm₁₂ x hx y hy
  order ho hl hm := by
    obtain ⟨-, hstrict⟩ := hcut ho hl hm
    obtain ⟨hl₁, hl₂, -⟩ := List.pairwise_append.1 hl
    obtain ⟨hm₁, hm₂, -⟩ := List.pairwise_append.1 hm
    have hmiddle : SameOrder cmp (l₂ ++ m₁) (m₁ ++ l₂) := SameOrder.exchange ho fun x hx y hy heq => by
      have hlt := hstrict y hy x hx
      have hzero := ho.eq_comm.1 heq
      omega
    have hexchange : SameOrder cmp (l₁ ++ l₂ ++ (m₁ ++ m₂)) (l₁ ++ m₁ ++ (l₂ ++ m₂)) := by
      have hwhole := ((SameOrder.refl l₁).append hmiddle).append (SameOrder.refl m₂)
      simpa only [List.append_assoc] using hwhole
    exact hexchange.trans ((h₁.order ho hl₁ hm₁).append (h₂.order ho hl₂ hm₂))

variable (cmp) in
theorem merges_single (x y : T) : Merges cmp [x] [y] (if cmp y x < 0 then [y, x] else [x, y]) := by
  split
  · next hlt =>
    refine ⟨List.Perm.swap y x [], fun ho _ _ => ?_, fun ho _ _ => ?_⟩
    · exact List.pairwise_pair.2 (ho.le_of_lt hlt)
    · refine SameOrder.exchange ho fun a ha b hb heq => ?_
      rw [List.mem_singleton.1 ha, List.mem_singleton.1 hb, ho.eq_comm] at heq
      omega
  · next hle => exact ⟨.refl _, fun ho _ _ => List.pairwise_pair.2 (ho.le_iff.2 hle), fun _ _ _ => .refl _⟩

theorem Sorts.insert {x : T} {l₁ l₂ : List T} (h : Sorts cmp l (l₁ ++ l₂)) (hafter : ∀ y ∈ l₂, cmp x y < 0)
    (hbefore : TotalPreorder cmp → ∀ y ∈ l₁, cmp y x ≤ 0) : Sorts cmp (l ++ [x]) (l₁ ++ x :: l₂) where
  perm := by
    refine (h.perm.append_right [x]).trans ?_
    rw [List.append_assoc]
    exact (show (l₂ ++ [x]).Perm ([x] ++ l₂) from List.perm_append_comm).append_left l₁
  ordered ho := by
    obtain ⟨h₁, h₂, h₁₂⟩ := List.pairwise_append.1 (h.ordered ho)
    refine Ordered.append h₁ (List.pairwise_cons.2 ⟨fun y hy => ho.le_of_lt (hafter y hy), h₂⟩) fun y hy z hz => ?_
    rcases List.mem_cons.1 hz with rfl | hz
    · exact hbefore ho y hy
    · exact h₁₂ y hy z hz
  order ho := by
    have hmiddle : SameOrder cmp (l₂ ++ [x]) ([x] ++ l₂) := SameOrder.exchange ho fun y hy z hz heq => by
      rw [List.mem_singleton.1 hz, ho.eq_comm] at heq
      have hlt := hafter y hy
      omega
    have hlast := ((h.order ho).append (SameOrder.refl [x]))
    rw [List.append_assoc] at hlast
    exact hlast.trans ((SameOrder.refl l₁).append hmiddle)

end StableSort
