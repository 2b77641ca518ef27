import Mathlib.Data.List.Basic

/-!
Binary search in a list kept in order of an integer key, with the interval halved as a C loop over
`min` and `max` halves it.
-/

namespace SortedTable

variable {α : Type} (key : α → Int)

/-- The loop of an insertion: the first position from `min` on whose key is not below `k`. -/
def lowerBound (l : List α) (k : Int) : Nat → Nat → Nat → Nat
  | 0, min, _ => min
  | fuel + 1, min, max =>
    if min < max then
      let mid := (min + max) / 2
      match l[mid]? with
      | some a => if key a < k then lowerBound l k fuel (mid + 1) max
          else lowerBound l k fuel min mid
      | none => min
    else min

/-- The loop of a search: the position of an entry with the key `k`. -/
def findLoop (l : List α) (k : Int) : Nat → Nat → Nat → Option Nat
  | 0, _, _ => none
  | fuel + 1, min, max =>
    if min < max then
      let mid := (min + max) / 2
      match l[mid]? with
      | some a =>
        if key a < k then findLoop l k fuel (mid + 1) max
        else if k < key a then findLoop l k fuel min mid
        else some mid
      | none => none
    else none

/-- The position of the entry with the key `k`. -/
def findIdx (l : List α) (k : Int) : Option Nat := findLoop key l k l.length 0 l.length

/-- The entry with the key `k`. -/
def find (l : List α) (k : Int) : Option α := (findIdx key l k).bind fun i => l[i]?

/-- Where an entry with the key `k` belongs. -/
def insertIdx (l : List α) (k : Int) : Nat := lowerBound key l k l.length 0 l.length

/-- The loop that looks for the place of a key: the entry that has it, or the first one above. -/
def placeLoop (l : List α) (k : Int) : Nat → Nat → Nat → Nat
  | 0, min, _ => min
  | fuel + 1, min, max =>
    if min < max then
      let mid := (min + max) / 2
      match l[mid]? with
      | some a =>
        if key a < k then placeLoop l k fuel (mid + 1) max
        else if k < key a then placeLoop l k fuel min mid
        else mid
      | none => min
    else min

def place (l : List α) (k : Int) : Nat := placeLoop key l k l.length 0 l.length

def insert (l : List α) (a : α) : List α :=
  l.take (insertIdx key l (key a)) ++ a :: l.drop (insertIdx key l (key a))

/-- In order, with repeated keys next to each other. -/
def Ordered (l : List α) : Prop := l.Pairwise fun a b => key a ≤ key b

/-! ### Search in a list without repeated keys -/

def Sorted (l : List α) : Prop := l.Pairwise fun a b => key a < key b

variable {key} {l : List α}

theorem Sorted.ordered (h : Sorted key l) : Ordered key l := h.imp fun hlt => Int.le_of_lt hlt

variable {a : α} {i : Nat} {k : Int}
variable {b : α}

theorem Ordered.le (h : Ordered key l) {j : Nat} (hi : l[i]? = some a) (hj : l[j]? = some b) (hij : i < j) :
    key a ≤ key b := by
  obtain ⟨hi', rfl⟩ := List.getElem?_eq_some_iff.mp hi
  obtain ⟨hj', rfl⟩ := List.getElem?_eq_some_iff.mp hj
  exact List.pairwise_iff_getElem.mp h i j hi' hj' hij

theorem Sorted.lt (h : Sorted key l) {j : Nat} (hi : l[i]? = some a) (hj : l[j]? = some b) (hij : i < j) :
    key a < key b := by
  obtain ⟨hi', rfl⟩ := List.getElem?_eq_some_iff.mp hi
  obtain ⟨hj', rfl⟩ := List.getElem?_eq_some_iff.mp hj
  exact List.pairwise_iff_getElem.mp h i j hi' hj' hij

theorem Sorted.eq_of_key (h : Sorted key l) (ha : a ∈ l) (hb : b ∈ l) (hkey : key a = key b) :
    a = b := by
  obtain ⟨i, hi⟩ := List.getElem?_of_mem ha
  obtain ⟨j, hj⟩ := List.getElem?_of_mem hb
  rcases Nat.lt_trichotomy i j with hij | rfl | hij
  · have := h.lt hi hj hij
    omega
  · exact Option.some.inj (hi.symm.trans hj)
  · have := h.lt hj hi hij
    omega

theorem Sorted.nodup (h : Sorted key l) : (l.map key).Nodup :=
  List.pairwise_map.mpr (h.imp fun hlt => Int.ne_of_lt hlt)

theorem findLoop_some {fuel min max : Nat} (h : findLoop key l k fuel min max = some i) :
    ∃ a, l[i]? = some a ∧ key a = k := by
  induction fuel generalizing min max with
  | zero => cases h
  | succ fuel ih =>
    rw [findLoop] at h
    split at h
    · simp only at h
      split at h
      · rename_i a hget
        split at h
        · exact ih h
        · split at h
          · exact ih h
          · cases h
            exact ⟨a, hget, by omega⟩
      · cases h
    · cases h

theorem findLoop_none (hordered : Ordered key l) {fuel min max : Nat} (hmax : max ≤ l.length)
    (hfuel : max - min ≤ fuel) (h : findLoop key l k fuel min max = none) (hget : l[i]? = some a)
    (hmin : min ≤ i) (hi : i < max) : key a ≠ k := by
  induction fuel generalizing min max with
  | zero => omega
  | succ fuel ih =>
    rw [findLoop, if_pos (by omega)] at h
    simp only at h
    have hmid : (min + max) / 2 < l.length := by omega
    have hb := List.getElem?_eq_getElem hmid
    rw [hb] at h
    simp only at h
    split at h
    · rename_i hlt
      rcases Nat.lt_or_ge i ((min + max) / 2 + 1) with hle | hge
      · rcases Nat.lt_or_eq_of_le (Nat.le_of_lt_succ hle) with hlt' | rfl
        · have := hordered.le hget hb hlt'
          omega
        · rw [hb] at hget
          cases hget
          omega
      · exact ih hmax (by omega) h hge hi
    · split at h
      · rename_i hgt
        rcases Nat.lt_or_ge i ((min + max) / 2) with hlt' | hge
        · exact ih (by omega) (by omega) h hmin hlt'
        · rcases Nat.lt_or_eq_of_le hge with hlt' | rfl
          · have := hordered.le hb hget hlt'
            omega
          · rw [hb] at hget
            cases hget
            omega
      · cases h

theorem find_some (h : find key l k = some a) : a ∈ l ∧ key a = k := by
  unfold find at h
  obtain ⟨i, hi, hget⟩ := Option.bind_eq_some_iff.mp h
  obtain ⟨b, hb, hkey⟩ := findLoop_some hi
  rw [hget] at hb
  cases hb
  exact ⟨List.mem_of_getElem? hget, hkey⟩

theorem find_none (hordered : Ordered key l) (h : find key l k = none) :
    ∀ a ∈ l, key a ≠ k := by
  intro a ha
  obtain ⟨i, hi⟩ := List.getElem?_of_mem ha
  have hlt : i < l.length := (List.getElem?_eq_some_iff.mp hi).1
  unfold find at h
  cases hfind : findIdx key l k with
  | none => exact findLoop_none hordered (Nat.le_refl _) (Nat.sub_le _ _) hfind hi (Nat.zero_le _) hlt
  | some j =>
    obtain ⟨b, hb, -⟩ := findLoop_some hfind
    rw [hfind, Option.bind_some, hb] at h
    cases h

theorem find_iff (hsorted : Sorted key l) :
    find key l k = some a ↔ a ∈ l ∧ key a = k := by
  refine ⟨find_some, fun ⟨ha, hkey⟩ => ?_⟩
  cases hfind : find key l k with
  | none => exact absurd hkey (find_none hsorted.ordered hfind a ha)
  | some b =>
    obtain ⟨hb, hkey'⟩ := find_some hfind
    rw [hsorted.eq_of_key ha hb (hkey.trans hkey'.symm)]

theorem find_eq_none_iff (hsorted : Sorted key l) :
    find key l k = none ↔ ∀ a ∈ l, key a ≠ k := by
  refine ⟨find_none hsorted.ordered, fun h => ?_⟩
  cases hfind : find key l k with
  | none => rfl
  | some b =>
    obtain ⟨hb, hkey⟩ := find_some hfind
    exact absurd hkey (h b hb)

theorem Ordered.take_below (hordered : Ordered key l) (hget : l[i]? = some b) (hb : key b < k) :
    ∀ a ∈ l.take (i + 1), key a < k := by
  intro a ha
  obtain ⟨j, hj, rfl⟩ := List.mem_take_iff_getElem.mp ha
  rcases Nat.lt_or_eq_of_le (Nat.le_of_lt_succ (Nat.lt_of_lt_of_le hj (Nat.min_le_left _ _))) with hlt | rfl
  · exact Int.lt_of_le_of_lt (hordered.le (List.getElem?_eq_getElem _) hget hlt) hb
  · rwa [(List.getElem?_eq_some_iff.mp hget).2]

theorem Ordered.drop_above (hordered : Ordered key l) (hget : l[i]? = some b) (hb : k ≤ key b) :
    ∀ a ∈ l.drop i, k ≤ key a := by
  intro a ha
  obtain ⟨j, hj, rfl⟩ := List.mem_drop_iff_getElem.mp ha
  rcases Nat.eq_zero_or_pos j with rfl | hpos
  · simp only [Nat.add_zero]
    rwa [(List.getElem?_eq_some_iff.mp hget).2]
  · exact Int.le_trans hb (hordered.le hget (List.getElem?_eq_getElem _) (by omega))

theorem placeLoop_spec (hordered : Ordered key l) (hnone : ∀ a ∈ l, key a ≠ k) {fuel min max : Nat}
    (hle : min ≤ max) (hmax : max ≤ l.length) (hfuel : max - min ≤ fuel)
    (hbelow : ∀ a ∈ l.take min, key a < k) (habove : ∀ a ∈ l.drop max, k < key a) :
    placeLoop key l k fuel min max ≤ l.length ∧ (∀ a ∈ l.take (placeLoop key l k fuel min max), key a < k) ∧
      ∀ a ∈ l.drop (placeLoop key l k fuel min max), k < key a := by
  induction fuel generalizing min max with
  | zero =>
    obtain rfl : min = max := by omega
    exact ⟨hmax, hbelow, habove⟩
  | succ fuel ih =>
    rw [placeLoop]
    split
    · rename_i hlt
      have hmid : (min + max) / 2 < l.length := by omega
      have hget := List.getElem?_eq_getElem hmid
      have hne := hnone _ (List.mem_of_getElem? hget)
      simp only [hget]
      split
      · rename_i hbelow'
        exact ih (by omega) hmax (by omega) (hordered.take_below hget hbelow') habove
      · split
        · rename_i habove'
          exact ih (by omega) (by omega) (by omega) hbelow (hordered.drop_above hget habove')
        · omega
    · obtain rfl : min = max := by omega
      exact ⟨hmax, hbelow, habove⟩

theorem Sorted.put (hsorted : Sorted key l) (hbelow : ∀ b ∈ l.take i, key b < key a)
    (habove : ∀ c ∈ l.drop i, key a < key c) :
    Sorted key (l.take i ++ a :: l.drop i) := by
  refine List.pairwise_append.mpr ⟨hsorted.sublist (List.take_sublist _ _),
    List.pairwise_cons.mpr ⟨habove, hsorted.sublist (List.drop_sublist _ _)⟩, fun b hb c hc => ?_⟩
  have hbelow' := hbelow b hb
  rcases List.mem_cons.mp hc with rfl | hc
  · exact hbelow'
  · exact Int.lt_trans hbelow' (habove c hc)

theorem mem_put : b ∈ l.take i ++ a :: l.drop i ↔ b = a ∨ b ∈ l := by
  rw [List.mem_append, List.mem_cons, or_left_comm, ← List.mem_append, List.take_append_drop]

theorem sorted_place (hsorted : Sorted key l) (hnone : ∀ b ∈ l, key b ≠ key a) :
    Sorted key (l.take (place key l (key a)) ++ a :: l.drop (place key l (key a))) := by
  obtain ⟨-, hbelow, habove⟩ := placeLoop_spec hsorted.ordered hnone (Nat.zero_le _) (Nat.le_refl l.length)
    (Nat.le_refl _) (by simp) (by simp)
  exact hsorted.put hbelow habove

theorem lowerBound_spec (hordered : Ordered key l) {fuel min max : Nat} (hle : min ≤ max)
    (hmax : max ≤ l.length) (hfuel : max - min ≤ fuel) (hbelow : ∀ a ∈ l.take min, key a < k)
    (habove : ∀ a ∈ l.drop max, k ≤ key a) :
    lowerBound key l k fuel min max ≤ l.length ∧ (∀ a ∈ l.take (lowerBound key l k fuel min max), key a < k) ∧
      ∀ a ∈ l.drop (lowerBound key l k fuel min max), k ≤ key a := by
  induction fuel generalizing min max with
  | zero =>
    obtain rfl : min = max := by omega
    exact ⟨hmax, hbelow, habove⟩
  | succ fuel ih =>
    rw [lowerBound]
    split
    · rename_i hlt
      have hmid : (min + max) / 2 < l.length := by omega
      have hget := List.getElem?_eq_getElem hmid
      simp only [hget]
      split
      · rename_i hbelow'
        exact ih (by omega) hmax (by omega) (hordered.take_below hget hbelow') habove
      · rename_i habove'
        exact ih (by omega) (by omega) (by omega) hbelow (hordered.drop_above hget (Int.not_lt.mp habove'))
    · obtain rfl : min = max := by omega
      exact ⟨hmax, hbelow, habove⟩

theorem mem_insert : b ∈ insert key l a ↔ b = a ∨ b ∈ l := mem_put

theorem insert_perm : (insert key l a).Perm (a :: l) := by
  unfold insert
  refine List.perm_middle.trans (List.Perm.cons a ?_)
  rw [List.take_append_drop]

theorem ordered_insert (hordered : Ordered key l) (a : α) : Ordered key (insert key l a) := by
  obtain ⟨-, hbelow, habove⟩ := lowerBound_spec hordered (Nat.zero_le _) (Nat.le_refl l.length)
    (Nat.le_refl _) (k := key a) (by simp) (by simp)
  refine List.pairwise_append.mpr ⟨hordered.sublist (List.take_sublist _ _),
    List.pairwise_cons.mpr ⟨habove, hordered.sublist (List.drop_sublist _ _)⟩, fun b hb c hc => ?_⟩
  have hbelow' := Int.le_of_lt (hbelow b hb)
  rcases List.mem_cons.mp hc with rfl | hc
  · exact hbelow'
  · exact Int.le_trans hbelow' (habove c hc)

theorem sorted_insert (hsorted : Sorted key l) (hnone : ∀ b ∈ l, key b ≠ key a) :
    Sorted key (insert key l a) := by
  obtain ⟨-, hbelow, habove⟩ := lowerBound_spec hsorted.ordered (Nat.zero_le _) (Nat.le_refl l.length)
    (Nat.le_refl _) (k := key a) (by simp) (by simp)
  refine hsorted.put hbelow fun c hc => ?_
  have hge := habove c hc
  have hne := hnone c (List.mem_of_mem_drop hc)
  omega

theorem foldl_insert (key : α → Int) {l as : List α} (hsorted : Sorted key l)
    (hnodup : (as.map key).Nodup) (hnew : ∀ a ∈ as, ∀ b ∈ l, key b ≠ key a) :
    Sorted key (as.foldl (insert key) l) ∧ ∀ b, b ∈ as.foldl (insert key) l ↔ b ∈ l ∨ b ∈ as := by
  induction as generalizing l with
  | nil => exact ⟨hsorted, fun b => by simp⟩
  | cons a as ih =>
    obtain ⟨hfresh, hnodup⟩ := List.nodup_cons.mp hnodup
    have hnew' : ∀ a' ∈ as, ∀ b ∈ insert key l a, key b ≠ key a' := by
      intro a' ha' b hb
      rcases (mem_insert).mp hb with rfl | hb
      · intro heq
        exact hfresh (heq ▸ List.mem_map_of_mem ha')
      · exact hnew a' (List.mem_cons_of_mem _ ha') b hb
    obtain ⟨hsorted', hmem⟩ :=
      ih (sorted_insert hsorted (hnew a List.mem_cons_self)) hnodup hnew'
    refine ⟨hsorted', fun b => ?_⟩
    rw [List.foldl_cons, hmem, mem_insert, List.mem_cons, or_comm (a := b = a), or_assoc]

theorem Sorted.map (hsorted : Sorted key l) {g : α → α} (hg : ∀ a ∈ l, key (g a) = key a) :
    Sorted key (l.map g) := by
  refine List.pairwise_map.mpr (hsorted.imp_of_mem fun {a b} ha hb hlt => ?_)
  rw [hg a ha, hg b hb]
  exact hlt

theorem Sorted.eraseIdx (hsorted : Sorted key l) (i : Nat) : Sorted key (l.eraseIdx i) :=
  hsorted.sublist (List.eraseIdx_sublist l i)

theorem mem_eraseIdx (hsorted : Sorted key l) (hget : l[i]? = some a) :
    b ∈ l.eraseIdx i ↔ b ∈ l ∧ key b ≠ key a := by
  rw [List.mem_eraseIdx_iff_getElem?]
  constructor
  · rintro ⟨j, hji, hj⟩
    refine ⟨List.mem_of_getElem? hj, ?_⟩
    rcases Nat.lt_or_gt_of_ne hji with hlt | hlt
    · have := hsorted.lt hj hget hlt
      omega
    · have := hsorted.lt hget hj hlt
      omega
  · rintro ⟨hb, hne⟩
    obtain ⟨j, hj⟩ := List.getElem?_of_mem hb
    refine ⟨j, ?_, hj⟩
    rintro rfl
    rw [hget] at hj
    cases hj
    exact hne rfl

theorem findIdx_some (h : findIdx key l k = some i) :
    ∃ a, l[i]? = some a ∧ key a = k := findLoop_some h

theorem find_of_findIdx (h : findIdx key l k = some i) (hget : l[i]? = some a) : find key l k = some a := by
  rw [find, h, Option.bind_some, hget]

theorem find_congr {l' : List α} (hsorted : Sorted key l) (hsorted' : Sorted key l')
    (h : ∀ a, key a = k → (a ∈ l ↔ a ∈ l')) : find key l k = find key l' k := by
  ext a
  rw [find_iff hsorted, find_iff hsorted']
  constructor
  · rintro ⟨ha, hkey⟩
    exact ⟨(h a hkey).mp ha, hkey⟩
  · rintro ⟨ha, hkey⟩
    exact ⟨(h a hkey).mpr ha, hkey⟩

theorem find_map (hsorted : Sorted key l) {g : α → α} (hg : ∀ a ∈ l, key (g a) = key a) (k : Int) :
    find key (l.map g) k = (find key l k).map g := by
  cases hfind : find key l k with
  | none =>
    rw [Option.map_none, find_eq_none_iff (hsorted.map hg)]
    intro b hb
    obtain ⟨a, ha, rfl⟩ := List.mem_map.mp hb
    rw [hg a ha]
    exact find_none hsorted.ordered hfind a ha
  | some a =>
    obtain ⟨ha, rfl⟩ := find_some hfind
    rw [Option.map_some, find_iff (hsorted.map hg)]
    exact ⟨List.mem_map_of_mem ha, hg a ha⟩

theorem find_eraseIdx (hsorted : Sorted key l) (hget : l[i]? = some a) (k : Int) :
    find key (l.eraseIdx i) k = if k = key a then none else find key l k := by
  split
  · rename_i heq
    subst heq
    rw [find_eq_none_iff (hsorted.eraseIdx i)]
    intro b hb
    exact ((mem_eraseIdx hsorted hget).mp hb).2
  · rename_i hne
    refine find_congr (hsorted.eraseIdx i) hsorted fun b hb => ?_
    rw [mem_eraseIdx hsorted hget]
    exact and_iff_left (fun h => hne (hb.symm.trans h))

theorem find_put (hsorted : Sorted key l) (hsorted' : Sorted key (l.take i ++ a :: l.drop i)) (k : Int) :
    find key (l.take i ++ a :: l.drop i) k = if k = key a then some a else find key l k := by
  split
  · rename_i heq
    exact (find_iff hsorted').mpr ⟨(mem_put).mpr (Or.inl rfl), heq.symm⟩
  · rename_i hne
    refine find_congr hsorted' hsorted fun b hb => ?_
    rw [mem_put]
    refine or_iff_right ?_
    rintro rfl
    exact hne hb.symm

theorem Sorted.set (hsorted : Sorted key l) (hget : l[i]? = some a) (hkey : key b = key a) :
    Sorted key (l.set i b) := by
  have hkeys : ∀ (j : Nat) (c : α), (l.set i b)[j]? = some c → ∃ d, l[j]? = some d ∧ key d = key c := by
    intro j c hc
    by_cases hij : i = j
    · subst hij
      rw [List.getElem?_set_self (List.getElem?_eq_some_iff.mp hget).1] at hc
      cases hc
      exact ⟨a, hget, hkey.symm⟩
    · rw [List.getElem?_set_ne hij] at hc
      exact ⟨c, hc, rfl⟩
  refine List.pairwise_iff_getElem.mpr fun j k hj hk hjk => ?_
  obtain ⟨c, hc, hkc⟩ := hkeys j _ (List.getElem?_eq_getElem hj)
  obtain ⟨d, hd, hkd⟩ := hkeys k _ (List.getElem?_eq_getElem hk)
  rw [← hkc, ← hkd]
  exact hsorted.lt hc hd hjk

theorem mem_set (hsorted : Sorted key l) {c : α} (hget : l[i]? = some a) :
    c ∈ l.set i b ↔ c = b ∨ c ∈ l ∧ key c ≠ key a := by
  have hlt := (List.getElem?_eq_some_iff.mp hget).1
  rw [List.set_eq_take_append_cons_drop, if_pos hlt, List.mem_append, List.mem_cons, or_left_comm,
    ← List.mem_append, ← List.eraseIdx_eq_take_drop_succ, mem_eraseIdx hsorted hget]

theorem find_set (hsorted : Sorted key l) (hget : l[i]? = some a) (hkey : key b = key a) (k : Int) :
    find key (l.set i b) k = if k = key a then some b else find key l k := by
  have hsorted' := hsorted.set hget hkey
  split
  · rename_i heq
    exact (find_iff hsorted').mpr ⟨(mem_set hsorted hget).mpr (Or.inl rfl), hkey.trans heq.symm⟩
  · rename_i hne
    refine find_congr hsorted' hsorted fun c hc => ?_
    rw [mem_set hsorted hget]
    constructor
    · rintro (rfl | h)
      · exact absurd (hc.symm.trans hkey) hne
      · exact h.1
    · intro h
      exact Or.inr ⟨h, fun heq => hne (hc.symm.trans heq)⟩

/-! ### Images

Only the keys are looked at. -/

section Images

variable {β : Type} {r : β → Int} {g : α → β}

theorem lowerBound_image (hg : ∀ a, r (g a) = key a) (l : List α) (k : Int) (fuel min max : Nat) :
    lowerBound r (l.map g) k fuel min max = lowerBound key l k fuel min max := by
  induction fuel generalizing min max with
  | zero => rfl
  | succ fuel ih =>
    rw [lowerBound, lowerBound]
    split
    · simp only [List.getElem?_map]
      cases l[(min + max) / 2]? with
      | none => rfl
      | some a =>
        simp only [Option.map_some, hg]
        split <;> exact ih _ _
    · rfl

theorem findLoop_image (hg : ∀ a, r (g a) = key a) (l : List α) (k : Int) (fuel min max : Nat) :
    findLoop r (l.map g) k fuel min max = findLoop key l k fuel min max := by
  induction fuel generalizing min max with
  | zero => rfl
  | succ fuel ih =>
    rw [findLoop, findLoop]
    split
    · simp only [List.getElem?_map]
      cases l[(min + max) / 2]? with
      | none => rfl
      | some a =>
        simp only [Option.map_some, hg]
        split
        · exact ih _ _
        · split
          · exact ih _ _
          · rfl
    · rfl

theorem insert_image (hg : ∀ a, r (g a) = key a) (l : List α) (a : α) :
    insert r (l.map g) (g a) = (insert key l a).map g := by
  have hidx : insertIdx r (l.map g) (r (g a)) = insertIdx key l (key a) := by
    rw [insertIdx, insertIdx, lowerBound_image hg, List.length_map, hg]
  rw [insert, insert, hidx, List.map_append, List.map_cons, List.map_take, List.map_drop]

theorem find_image (hg : ∀ a, r (g a) = key a) (l : List α) (k : Int) :
    find r (l.map g) k = (find key l k).map g := by
  have hidx : findIdx r (l.map g) k = findIdx key l k := by
    rw [findIdx, findIdx, findLoop_image hg, List.length_map]
  rw [find, find, hidx]
  cases findIdx key l k with
  | none => rfl
  | some i => rw [Option.bind_some, Option.bind_some, List.getElem?_map]

end Images

end SortedTable
