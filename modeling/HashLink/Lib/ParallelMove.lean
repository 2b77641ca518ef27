import Mathlib.Data.List.Perm.Subperm

/-!
Moves between locations that are to happen at the same time, done one after the other. What is done is a
move to a location that no other move reads, or an exchange of two locations on a cycle of moves.
-/

namespace ParallelMove

variable {L V : Type*}

/-- The values after all the moves, each a destination and a source, at once. -/
structure Parallel (moves : List (L × L)) (σ σ' : L → V) : Prop where
  moved : ∀ m ∈ moves, σ' m.1 = σ m.2
  kept : ∀ x, (∀ m ∈ moves, m.1 ≠ x) → σ' x = σ x

theorem Parallel.perm {moves moves' : List (L × L)} {σ σ' : L → V} (h : Parallel moves σ σ')
    (hperm : moves.Perm moves') : Parallel moves' σ σ' :=
  ⟨fun m hm => h.moved m (hperm.mem_iff.2 hm), fun x hx => h.kept x fun m hm => hx m (hperm.mem_iff.1 hm)⟩

section Steps

variable {moves : List (L × L)} {σ σ' : L → V} {dst src : L}

theorem Parallel.self (h : Parallel moves σ σ') (hto : ∀ m ∈ moves, m.1 ≠ dst) :
    Parallel ((dst, dst) :: moves) σ σ' := by
  constructor
  · intro m hm
    obtain rfl | hm := List.mem_cons.1 hm
    · exact h.kept dst hto
    · exact h.moved m hm
  · intro x hx
    exact h.kept x fun m hm => hx m (List.mem_cons_of_mem _ hm)

variable [DecidableEq L]

theorem Parallel.move (h : Parallel moves (Function.update σ dst (σ src)) σ')
    (hto : ∀ m ∈ moves, m.1 ≠ dst) (hread : ∀ m ∈ moves, m.2 ≠ dst) :
    Parallel ((dst, src) :: moves) σ σ' := by
  constructor
  · intro m hm
    obtain rfl | hm := List.mem_cons.1 hm
    · rw [h.kept dst hto, Function.update_self]
    · rw [h.moved m hm, Function.update_of_ne (hread m hm)]
  · intro x hx
    have hne : x ≠ dst := fun he => hx _ List.mem_cons_self he.symm
    rw [h.kept x fun m hm => hx m (List.mem_cons_of_mem _ hm), Function.update_of_ne hne]

/-- The values of two locations exchanged. -/
def exchange (σ : L → V) (a b : L) : L → V := Function.update (Function.update σ a (σ b)) b (σ a)

/-- Where the value of a location is after an exchange. -/
def rename (a b x : L) : L := if x = a then b else if x = b then a else x

@[simp] theorem rename_left (a b : L) : rename a b a = b := if_pos rfl

theorem rename_eq_self {a b x : L} (ha : x ≠ a) (hb : x ≠ b) : rename a b x = x := by
  rw [rename, if_neg ha, if_neg hb]

theorem exchange_rename (σ : L → V) (a b x : L) : exchange σ a b (rename a b x) = σ x := by
  unfold exchange rename
  split
  next h => rw [Function.update_self, h]
  next h =>
    split
    next hb =>
      subst hb
      rw [Function.update_of_ne (Ne.symm h), Function.update_self]
    next hb => rw [Function.update_of_ne hb, Function.update_of_ne h]

theorem Parallel.swap (h : Parallel (moves.map fun m => (m.1, rename dst src m.2)) (exchange σ dst src) σ')
    (hto : ∀ m ∈ moves, m.1 ≠ dst) (hsrc : ∃ m ∈ moves, m.1 = src) :
    Parallel ((dst, src) :: moves) σ σ' := by
  have hdest : ∀ x, (∀ m ∈ moves, m.1 ≠ x) → ∀ m ∈ moves.map fun m => (m.1, rename dst src m.2), m.1 ≠ x := by
    intro x hx m hm
    obtain ⟨n, hn, rfl⟩ := List.mem_map.1 hm
    exact hx n hn
  obtain ⟨n, hn, hns⟩ := hsrc
  have hne : dst ≠ src := fun he => hto n hn (hns.trans he.symm)
  constructor
  · intro m hm
    obtain rfl | hm := List.mem_cons.1 hm
    · rw [h.kept dst (hdest dst hto)]
      show Function.update (Function.update σ dst (σ src)) src (σ dst) dst = σ src
      rw [Function.update_of_ne hne, Function.update_self]
    · rw [h.moved _ (List.mem_map_of_mem hm)]
      exact exchange_rename σ dst src m.2
  · intro x hx
    have hxto : x ≠ dst := fun he => hx _ List.mem_cons_self he.symm
    have hxsrc : x ≠ src := fun he => hx n (List.mem_cons_of_mem _ hn) (hns.trans he.symm)
    rw [h.kept x (hdest x fun m hm => hx m (List.mem_cons_of_mem _ hm))]
    show Function.update (Function.update σ dst (σ src)) src (σ dst) x = σ x
    rw [Function.update_of_ne hxsrc, Function.update_of_ne hxto]

end Steps

section Cycles

variable {moves : List (L × L)} {dst src : L}

/-- Every destination is a source as well. -/
def AllRead (moves : List (L × L)) : Prop := ∀ m ∈ moves, m.1 ∈ moves.map Prod.snd

theorem AllRead.sources_perm (h : AllRead moves) (hnodup : (moves.map Prod.fst).Nodup) :
    (moves.map Prod.fst).Perm (moves.map Prod.snd) := by
  have hsub : moves.map Prod.fst ⊆ moves.map Prod.snd := by
    intro x hx
    obtain ⟨m, hm, rfl⟩ := List.mem_map.1 hx
    exact h m hm
  exact (hnodup.subperm hsub).perm_of_length_le (by simp)

theorem AllRead.tail (h : AllRead ((dst, dst) :: moves)) (hto : ∀ m ∈ moves, m.1 ≠ dst) : AllRead moves := by
  intro m hm
  have hread := h m (List.mem_cons_of_mem _ hm)
  rw [List.map_cons, List.mem_cons] at hread
  exact hread.resolve_left (hto m hm)

theorem AllRead.swap [DecidableEq L] (h : AllRead ((dst, src) :: moves))
    (hnodup : (((dst, src) :: moves).map Prod.fst).Nodup) (hne : dst ≠ src) :
    AllRead (moves.map fun m => (m.1, rename dst src m.2)) := by
  have hperm := h.sources_perm hnodup
  have hto : ∀ m ∈ moves, m.1 ≠ dst := by
    intro m hm he
    exact (List.nodup_cons.1 hnodup).1 (List.mem_map.2 ⟨m, hm, he⟩)
  have hread : ∀ x, x ∈ moves.map Prod.snd → rename dst src x ∈ (moves.map fun m =>
      (m.1, rename dst src m.2)).map Prod.snd := by
    intro x hx
    obtain ⟨n, hn, rfl⟩ := List.mem_map.1 hx
    exact List.mem_map.2 ⟨_, List.mem_map_of_mem hn, rfl⟩
  intro m hm
  obtain ⟨n, hn, rfl⟩ := List.mem_map.1 hm
  by_cases hsrc : n.1 = src
  · have hdst : dst ∈ moves.map Prod.snd := by
      have hmem := h _ List.mem_cons_self
      rw [List.map_cons, List.mem_cons] at hmem
      exact hmem.resolve_left hne
    have hmoved := hread dst hdst
    rw [rename_left] at hmoved
    show n.1 ∈ _
    rw [hsrc]
    exact hmoved
  · have hmem := h n (List.mem_cons_of_mem _ hn)
    rw [List.map_cons, List.mem_cons] at hmem
    have hmoved := hread n.1 (hmem.resolve_left hsrc)
    rw [rename_eq_self (hto n hn) hsrc] at hmoved
    exact hmoved

theorem self_of_swap [DecidableEq L] (h : AllRead ((dst, src) :: moves))
    (hnodup : (((dst, src) :: moves).map Prod.fst).Nodup) {m : L × L} (hm : m ∈ moves) (hne : m.1 ≠ m.2)
    (hself : m.1 = rename dst src m.2) : m.1 = src := by
  have hsources := (h.sources_perm hnodup).nodup_iff.1 hnodup
  have hsrc : m.2 ≠ src := by
    intro he
    exact (List.nodup_cons.1 hsources).1 (List.mem_map.2 ⟨m, hm, he⟩)
  by_cases hdst : m.2 = dst
  · rw [hself, hdst, rename_left]
  · rw [rename_eq_self hdst hsrc] at hself
    exact absurd hself hne

end Cycles

end ParallelMove
