import HashLink.HotReload.TypeCheck

/-!
When the comparison of types comes to an end: when the questions it asks do not go on forever. Virtuals may contain
themselves: the comparison marks the record it is in, and `hl_same_type` tells virtuals apart by their record.
Functions and the types with a parameter have no such mark, and super classes are followed to the root.
-/

namespace HashLink.HotReload

open Fuel

variable {m : TypeMem}

def TypeMem.parts (m : TypeMem) (t : Nat) : List Nat :=
  match m.types t with
  | .fun_ _ args ret => args ++ [ret]
  | .tparam _ t => [t]
  | _ => []

/-- A type that does not contain itself through its parts. -/
def Grounded (m : TypeMem) (t : Nat) : Prop := Acc (fun t' t => t' ∈ m.parts t) t

/-- A class with a root among its super classes. -/
inductive Rooted (m : TypeMem) : Nat → Prop where
  | root {o : Nat} (h : (m.objs o).super = none) : Rooted m o
  | super {o o' t : Nat} {struct : Bool} (h : (m.objs o).super = some t)
      (ht : m.types t = .obj struct o') (h' : Rooted m o') : Rooted m o

def Leaf (m : TypeMem) (t : Nat) : Prop :=
  match m.types t with
  | .virt v => ∀ f ∈ m.virts v, Grounded m f.2
  | .obj _ o => Rooted m o
  | _ => True

/-- A type that does not contain itself through its parts, with the fields of the virtuals and the
super classes among them. -/
inductive Settled (m : TypeMem) : Nat → Prop where
  | mk {t : Nat} (parts : ∀ t' ∈ m.parts t, Settled m t') (leaf : Leaf m t) : Settled m t

theorem Settled.grounded {t : Nat} (h : Settled m t) : Grounded m t := by
  induction h with
  | mk _ _ ih => exact .intro _ ih

variable {value : Question → Bool → Prop} {q : Question}

theorem asks_either {t u : Comparison} (h : (either t u).Asks value q) : t.Asks value q ∨ u.Asks value q := by
  obtain h | ⟨a, h⟩ := Asking.asks_andThen h
  · exact .inl h
  · cases a with
    | true => cases h
    | false => exact .inr h

theorem asks_both {t u : Comparison} (h : (both t u).Asks value q) : t.Asks value q ∨ u.Asks value q := by
  obtain h | ⟨a, h⟩ := Asking.asks_andThen h
  · exact .inl h
  · cases a with
    | true => exact .inr h
    | false => cases h

theorem asks_pairs {α : Type} {check : α → α → Comparison} {as bs : List α}
    (h : (askPairs check as bs).Asks value q) : ∃ a ∈ as, ∃ b ∈ bs, (check a b).Asks value q := by
  induction as generalizing bs with
  | nil => cases h
  | cons a as ih =>
    cases bs with
    | nil => cases h
    | cons b bs =>
      obtain h | h := asks_both h
      · exact ⟨a, List.mem_cons_self, b, List.mem_cons_self, h⟩
      · obtain ⟨x, hx, y, hy, h⟩ := ih h
        exact ⟨x, List.mem_cons_of_mem _ hx, y, List.mem_cons_of_mem _ hy, h⟩

theorem part_of_fun {t ret : Nat} {method : Bool} {args : List Nat}
    (h : m.types t = .fun_ method args ret) : ret ∈ m.parts t ∧ ∀ x ∈ args, x ∈ m.parts t := by
  rw [TypeMem.parts, h]
  exact ⟨List.mem_append_right _ List.mem_cons_self, fun x hx => List.mem_append_left _ hx⟩

theorem part_of_tparam {t t' : Nat} {kind : ParamKind} (h : m.types t = .tparam kind t') :
    t' ∈ m.parts t := by
  rw [TypeMem.parts, h]
  exact List.mem_cons_self

theorem asks_same {a b : Nat} (h : (m.compare (.same a b)).Asks value q) :
    ∃ x ∈ m.parts a, ∃ y, q = .same x y := by
  rw [TypeMem.compare] at h
  split at h
  · cases h
  split at h
  case h_2 ha _ =>
    split at h
    · exact ⟨_, part_of_tparam ha, _, Asking.asks_call h⟩
    · cases h
  case h_3 ha _ =>
    split at h
    · obtain h | h := asks_both h
      · obtain ⟨x, hx, y, -, h⟩ := asks_pairs h
        exact ⟨x, (part_of_fun ha).2 x hx, y, Asking.asks_call h⟩
      · exact ⟨_, (part_of_fun ha).1, _, Asking.asks_call h⟩
    · cases h
  all_goals cases h

theorem asks_derives {o oto : Nat} (ho : Rooted m o) (h : (m.compare (.derives o oto)).Asks value q) :
    ∃ o' t struct, q = .derives o' oto ∧ (m.objs o).super = some t ∧ m.types t = .obj struct o' := by
  rw [TypeMem.compare] at h
  split at h
  · cases h
  split at h
  · cases h
  · next hsuper =>
    split at h
    · next ht => exact ⟨_, _, _, Asking.asks_call h, hsuper, ht⟩
    · next hlost =>
      cases ho with
      | root hroot => cases hroot.symm.trans hsuper
      | super hsuper' ht _ =>
        cases hsuper.symm.trans hsuper'
        exact absurd ht (hlost _ _)

/-- The questions of a cast. -/
inductive CastAsks (m : TypeMem) (a b : Nat) : Question → Prop where
  | same : CastAsks m a b (.same a b)
  | field {v : Nat} {f : Int × Nat} (ha : m.types a = .virt v) (hf : f ∈ m.virts v) (t : Nat) :
      CastAsks m a b (.same f.2 t)
  | derives {struct : Bool} {o : Nat} (ha : m.types a = .obj struct o) (oto : Nat) : CastAsks m a b (.derives o oto)
  | part {x y : Nat} (hx : x ∈ m.parts a) (hy : y ∈ m.parts b) : CastAsks m a b (.cast x y)
  | back {x y : Nat} (hx : x ∈ m.parts a) (hy : y ∈ m.parts b) : CastAsks m a b (.cast y x)
  | packed {x : Nat} (hx : x ∈ m.parts a) : CastAsks m a b (.cast x b)

theorem asks_cast {a b : Nat} (h : (m.compare (.cast a b)).Asks value q) : CastAsks m a b q := by
  have hsame : (Asking.call (.same a b) : Comparison).Asks value q → CastAsks m a b q :=
    fun h => Asking.asks_call h ▸ .same
  rw [TypeMem.compare] at h
  split at h
  · cases h
  split at h
  · cases h
  split at h
  · cases h
  split at h
  case h_1 ha _ =>
    split at h
    · obtain h | h := asks_either h
      · obtain ⟨f, hf, f', -, h⟩ := asks_pairs h
        split at h
        · cases h
        · exact Asking.asks_call h ▸ .field ha hf f'.2
      · exact hsame h
    · exact hsame h
  case h_2 ha _ =>
    split at h
    · cases h
    · exact Asking.asks_call h ▸ .derives ha _
  case h_3 ha hb =>
    split at h
    · obtain h | h := asks_both h
      · exact Asking.asks_call h ▸ .part (part_of_fun ha).1 (part_of_fun hb).1
      · obtain ⟨x, hx, y, hy, h⟩ := asks_pairs h
        obtain h | h := asks_either h
        · exact Asking.asks_call h ▸ .back ((part_of_fun ha).2 x hx) ((part_of_fun hb).2 y hy)
        · cases h
    · exact hsame h
  case h_4 ha _ => exact Asking.asks_call h ▸ .packed (part_of_tparam ha)
  case h_5 => exact hsame h

theorem same_acc {a : Nat} (ha : Grounded m a) (b : Nat) : Acc (Needs m.compare) (.same a b) := by
  induction ha generalizing b with
  | intro a _ ih =>
    refine .intro _ fun q hq => ?_
    obtain ⟨x, hx, y, rfl⟩ := asks_same hq
    exact ih x hx y

theorem derives_acc {o : Nat} (ho : Rooted m o) (oto : Nat) : Acc (Needs m.compare) (.derives o oto) := by
  induction ho with
  | root hroot =>
    refine .intro _ fun q hq => ?_
    obtain ⟨o', t, struct, -, hsuper, -⟩ := asks_derives (.root hroot) hq
    cases hroot.symm.trans hsuper
  | super hsuper ht ho ih =>
    refine .intro _ fun q hq => ?_
    obtain ⟨o', t, struct, rfl, hsuper', ht'⟩ := asks_derives (.super hsuper ht ho) hq
    cases hsuper.symm.trans hsuper'
    cases ht.symm.trans ht'
    exact ih

theorem cast_acc {a b : Nat} (ha : Settled m a) (hpart : ∀ x ∈ m.parts a, ∀ y ∈ m.parts b,
      Acc (Needs m.compare) (.cast x y) ∧ Acc (Needs m.compare) (.cast y x))
    (hpacked : ∀ x ∈ m.parts a, Acc (Needs m.compare) (.cast x b)) : Acc (Needs m.compare) (.cast a b) := by
  refine .intro _ fun q hq => ?_
  have hleaf : Leaf m a := by
    cases ha with
    | mk _ leaf => exact leaf
  unfold Leaf at hleaf
  cases asks_cast hq with
  | same => exact same_acc ha.grounded b
  | field hta hf t =>
    rw [hta] at hleaf
    exact same_acc (hleaf _ hf) t
  | derives hta oto =>
    rw [hta] at hleaf
    exact derives_acc hleaf oto
  | part hx hy => exact (hpart _ hx _ hy).1
  | back hx hy => exact (hpart _ hx _ hy).2
  | packed hx => exact hpacked _ hx

theorem cast_acc_both {a b : Nat} (ha : Settled m a) (hb : Settled m b) :
    Acc (Needs m.compare) (.cast a b) ∧ Acc (Needs m.compare) (.cast b a) := by
  induction ha generalizing b with
  | @mk a hpartsA hleafA iha =>
    induction hb with
    | @mk b hpartsB hleafB ihb =>
      have hparts := fun x hx y hy => iha x hx (hpartsB y hy)
      refine ⟨cast_acc (.mk hpartsA hleafA) hparts fun x hx => (iha x hx (.mk hpartsB hleafB)).1, ?_⟩
      exact cast_acc (.mk hpartsB hleafB) (fun y hy x hx => (hparts x hx y hy).symm) fun y hy => (ihb y hy).2

end HashLink.HotReload
