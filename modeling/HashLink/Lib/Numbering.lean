import Mathlib.Data.List.Nodup
import Mathlib.Data.List.Perm.Subperm

/-! Entries in some order of their own that are numbered by their places in a list. The list is read
back when each entry is written at its number. -/

namespace Numbering

variable {κ : Type*} {entries rest : List (κ × Nat)} {names : List κ} {k : κ} {i j : Nat}

/-- The entries are the places of a list. -/
def Numbers (entries : List (κ × Nat)) (names : List κ) : Prop := entries.Perm names.zipIdx

/-- The number of an entry after the one numbered `i` is removed. -/
def renumber (i : Nat) (e : κ × Nat) : κ × Nat := (e.1, if i < e.2 then e.2 - 1 else e.2)

def write (a : List (Option κ)) (entries : List (κ × Nat)) : List (Option κ) :=
  entries.foldl (fun a e => a.set e.2 (some e.1)) a

theorem length_write (a : List (Option κ)) (entries : List (κ × Nat)) :
    (write a entries).length = a.length := by
  induction entries generalizing a with
  | nil => rfl
  | cons e rest ih => exact (ih _).trans List.length_set

theorem write_origin {a : List (Option κ)} (h : (write a entries)[j]? = some (some k)) :
    (k, j) ∈ entries ∨ a[j]? = some (some k) := by
  induction entries generalizing a with
  | nil => exact .inr h
  | cons e rest ih =>
    rcases ih h with hrest | hset
    · exact .inl (List.mem_cons_of_mem _ hrest)
    · rw [List.getElem?_set] at hset
      split at hset
      · rename_i hj
        split at hset
        · cases hset
          exact .inl (hj ▸ List.mem_cons_self)
        · cases hset
      · exact .inr hset

theorem write_get {a : List (Option κ)} (hlt : j < a.length) (honly : ∀ e ∈ entries, e.2 = j → e.1 = k)
    (h : (k, j) ∈ entries ∨ a[j]? = some (some k)) : (write a entries)[j]? = some (some k) := by
  induction entries generalizing a with
  | nil => exact h.resolve_left List.not_mem_nil
  | cons e rest ih =>
    refine ih (by simpa using hlt) (fun x hx => honly x (List.mem_cons_of_mem _ hx)) ?_
    by_cases he : e.2 = j
    · obtain rfl := honly e List.mem_cons_self he
      subst he
      exact .inr (List.getElem?_set_self hlt)
    · rcases h with hmem | hold
      · rcases List.mem_cons.mp hmem with rfl | hmem
        · exact absurd rfl he
        · exact .inl hmem
      · exact .inr ((List.getElem?_set_ne he).trans hold)

namespace Numbers

theorem length_eq (h : Numbers entries names) : entries.length = names.length :=
  (List.Perm.length_eq h).trans List.length_zipIdx

theorem keys (h : Numbers entries names) : (entries.map Prod.fst).Perm names := by
  have hmap := h.map Prod.fst
  rwa [List.zipIdx_map_fst] at hmap

theorem get_iff (h : Numbers entries names) : (k, i) ∈ entries ↔ names[i]? = some k :=
  h.mem_iff.trans List.mk_mem_zipIdx_iff_getElem?

theorem append (h : Numbers rest names) (hperm : entries.Perm ((k, names.length) :: rest)) :
    Numbers entries (names ++ [k]) := by
  have hlast : (names ++ [k]).zipIdx = names.zipIdx ++ [(k, names.length)] := by
    rw [List.zipIdx_append, Nat.zero_add]
    rfl
  unfold Numbers
  rw [hlast]
  exact hperm.trans ((h.cons _).trans (List.perm_append_singleton _ _).symm)

theorem erase (h : Numbers ((k, i) :: rest) names) :
    Numbers (rest.map (renumber i)) (names.eraseIdx i) := by
  have hget := h.get_iff.mp List.mem_cons_self
  have hlt : i < names.length := (List.getElem?_eq_some_iff.mp hget).1
  have hlen : (names.take i).length = i := List.length_take_of_le (Nat.le_of_lt hlt)
  have hsplit : names.zipIdx = (names.take i).zipIdx ++ (k, i) :: (names.drop (i + 1)).zipIdx (i + 1) := by
    conv_lhs => rw [← List.take_append_drop i names, List.zipIdx_append, Nat.zero_add, hlen]
    rw [List.drop_eq_getElem_cons hlt, List.zipIdx_cons, (List.getElem?_eq_some_iff.mp hget).2]
  have hrest : rest.Perm ((names.take i).zipIdx ++ (names.drop (i + 1)).zipIdx (i + 1)) := by
    have hperm := h
    rw [Numbers, hsplit] at hperm
    exact (hperm.trans List.perm_middle).cons_inv
  have hbefore : (names.take i).zipIdx.map (renumber i) = (names.take i).zipIdx := by
    conv_rhs => rw [← List.map_id ((names.take i).zipIdx)]
    refine List.map_congr_left fun e he => ?_
    have hnot : ¬i < e.2 := by
      have := (List.mem_zipIdx he).2.1
      omega
    exact Prod.ext rfl (if_neg hnot)
  have hafter : ((names.drop (i + 1)).zipIdx (i + 1)).map (renumber i) = (names.drop (i + 1)).zipIdx i := by
    rw [List.zipIdx_succ, List.map_map]
    conv_rhs => rw [← List.map_id ((names.drop (i + 1)).zipIdx i)]
    refine List.map_congr_left fun e he => ?_
    have hlt : i < e.2 + 1 := Nat.lt_succ_of_le (List.mem_zipIdx he).1
    exact Prod.ext rfl (if_pos hlt)
  have hmap := hrest.map (renumber i)
  rw [List.map_append, hbefore, hafter] at hmap
  unfold Numbers
  rw [List.eraseIdx_eq_take_drop_succ, List.zipIdx_append, Nat.zero_add, hlen]
  exact hmap

theorem write_eq (h : Numbers entries names) :
    write (List.replicate entries.length none) entries = names.map some := by
  refine List.ext_getElem? fun j => ?_
  rw [List.getElem?_map]
  cases hj : names[j]? with
  | none =>
    have hle : names.length ≤ j := List.getElem?_eq_none_iff.mp hj
    refine List.getElem?_eq_none ?_
    rw [length_write, List.length_replicate, h.length_eq]
    exact hle
  | some k =>
    have hlt : j < names.length := (List.getElem?_eq_some_iff.mp hj).1
    refine write_get (by rwa [List.length_replicate, h.length_eq]) ?_ (.inl (h.get_iff.mpr hj))
    rintro ⟨k', j'⟩ he rfl
    exact Option.some.inj ((h.get_iff.mp he).symm.trans hj)

end Numbers

theorem numbers_of_write (h : write (List.replicate entries.length none) entries = names.map some) :
    Numbers entries names := by
  have hlen : entries.length = names.length := by
    have := congrArg List.length h
    rwa [length_write, List.length_replicate, List.length_map] at this
  have hsub : names.zipIdx ⊆ entries := by
    rintro ⟨k, j⟩ hmem
    have hread : (write (List.replicate entries.length none) entries)[j]? = some (some k) := by
      rw [h, List.getElem?_map, List.mk_mem_zipIdx_iff_getElem?.mp hmem]
      rfl
    refine (write_origin hread).resolve_right fun hold => ?_
    rw [List.getElem?_replicate] at hold
    split at hold <;> cases hold
  have hnodup : names.zipIdx.Nodup := by
    refine List.Nodup.of_map Prod.snd ?_
    rw [List.zipIdx_map_snd]
    exact List.nodup_range'
  refine ((List.subperm_of_subset hnodup hsub).perm_of_length_le ?_).symm
  exact Nat.le_of_eq (hlen.trans List.length_zipIdx.symm)

end Numbering
