import HashLink.Lib.Bisect
import HashLink.Lib.OperationRun
import Mathlib.Data.List.Nodup
import Mathlib.Data.Prod.Lex
import Mathlib.Order.BooleanAlgebra.Set
import Mathlib.Algebra.Group.Int.Units

/-!
The sorted sets, maps and multimaps that `data_struct.c` makes of its macros: keys in a sorted array, the values in one
beside it, and a binary search in every operation.
-/

namespace HashLink.SortedArrays

open Bisect

/-- The bytes of an element of an array: an `int` or a pointer. -/
inductive Width where
  | four
  | eight
  deriving DecidableEq, Repr

def Width.bytes : Width → Nat
  | four => 4
  | eight => 8

/-- The elements that a block of `hl_malloc` can have, whose size is an `int`. -/
def Width.limit : Width → Nat
  | four => 2 ^ 28
  | eight => 2 ^ 27

/-- `check_size`: the room of the arrays afterwards. -/
def checkSize (width : Width) (cur max : Nat) : Option Nat :=
  if cur = max then
    let n := if max ≠ 0 then 2 * max else 2
    if n * width.bytes < 2 ^ 31 then some n else none
  else some max

/-- The shift of the elements from `pos` on, and the element that is put there. -/
def insertAt {α : Type} (l : List α) (pos : Nat) (a : α) : List α := l.take pos ++ a :: l.drop pos

def removeAt {α : Type} (l : List α) (pos : Nat) : List α := l.take pos ++ l.drop (pos + 1)

section Operations

variable {K V : Type} [LinearOrder K]

def keyCmp (keys : List K) (k : K) (i : Nat) : Ordering := keys[i]?.elim .eq (compare k)

def searchKey (keys : List K) (k : K) : Found := search (keyCmp keys k) keys.length 0 keys.length

structure SortedSet (K : Type) where
  keys : List K
  max : Nat

def SortedSet.empty : SortedSet K := ⟨[], 0⟩

def SortedSet.add (width : Width) (st : SortedSet K) (k : K) : Option (SortedSet K × Bool) :=
  match searchKey st.keys k with
  | .hit _ => some (st, false)
  | .miss pos => (checkSize width st.keys.length st.max).map fun max => (⟨insertAt st.keys pos k, max⟩, true)

/-- `exists`. -/
def hasKey (keys : List K) (k : K) : Bool :=
  match searchKey keys k with
  | .hit _ => true
  | .miss _ => false

def SortedSet.remove (st : SortedSet K) (k : K) : SortedSet K × Bool :=
  match searchKey st.keys k with
  | .hit pos => ({ st with keys := removeAt st.keys pos }, true)
  | .miss _ => (st, false)

structure SortedMap (K V : Type) where
  keys : List K
  values : List V
  max : Nat

def SortedMap.empty : SortedMap K V := ⟨[], [], 0⟩

/-- The end of every operation that adds a pair. -/
def SortedMap.insert (width : Width) (st : SortedMap K V) (pos : Nat) (k : K) (v : V) : Option (SortedMap K V × Bool) :=
  (checkSize width st.keys.length st.max).map fun max =>
    (⟨insertAt st.keys pos k, insertAt st.values pos v, max⟩, true)

def SortedMap.add (width : Width) (st : SortedMap K V) (k : K) (v : V) : Option (SortedMap K V × Bool) :=
  match searchKey st.keys k with
  | .hit _ => some (st, false)
  | .miss pos => st.insert width pos k v

def SortedMap.replace [DecidableEq V] (width : Width) (st : SortedMap K V) (k : K) (v : V) :
    Option (SortedMap K V × Bool) :=
  match searchKey st.keys k with
  | .hit mid =>
    if st.values[mid]? = some v then some (st, false) else some ({ st with values := st.values.set mid v }, true)
  | .miss pos => st.insert width pos k v

def pairCmp [LinearOrder V] (keys : List K) (values : List V) (k : K) (v : V) (i : Nat) : Ordering :=
  (keyCmp keys k i).then (keyCmp values v i)

def SortedMap.addPair [LinearOrder V] (width : Width) (st : SortedMap K V) (k : K) (v : V) :
    Option (SortedMap K V × Bool) :=
  match search (pairCmp st.keys st.values k v) st.keys.length 0 st.keys.length with
  | .hit _ => some (st, false)
  | .miss pos => st.insert width pos k v

/-- `find`, with `S_DEFVAL`. -/
def SortedMap.find (st : SortedMap K V) (default : V) (k : K) : V :=
  match searchKey st.keys k with
  | .hit mid => st.values.getD mid default
  | .miss _ => default

def SortedMap.remove (st : SortedMap K V) (k : K) : SortedMap K V × Bool :=
  match searchKey st.keys k with
  | .hit pos => ({ st with keys := removeAt st.keys pos, values := removeAt st.values pos }, true)
  | .miss _ => (st, false)

end Operations

/-- The room of arrays: nothing at first, and then doubled. -/
structure Room (width : Width) (cur max : Nat) : Prop where
  le : cur ≤ max
  power : max = 0 ∨ ∃ k, max = 2 ^ k ∧ max ≤ width.limit

theorem Width.limit_eq (width : Width) : ∃ k, width.limit = 2 ^ (k + 1) ∧ width.limit * width.bytes = 2 ^ 30 := by
  cases width
  · exact ⟨27, rfl, rfl⟩
  · exact ⟨26, rfl, rfl⟩

theorem checkSize_room {width : Width} {cur max : Nat} (h : Room width cur max) (hlt : cur < width.limit) :
    ∃ n, checkSize width cur max = some n ∧ Room width (cur + 1) n := by
  obtain ⟨l, hlimit, hbytes⟩ := width.limit_eq
  have hfits {k : Nat} (hle : 2 ^ k ≤ width.limit) : 2 ^ k * width.bytes < 2 ^ 31 := by
    have := Nat.mul_le_mul_right width.bytes hle
    omega
  unfold checkSize
  by_cases hcur : cur = max
  · rw [if_pos hcur]
    rcases h.power with hzero | ⟨k, hk, hle⟩
    · have hone : 2 ^ 1 ≤ width.limit := hlimit ▸ Nat.pow_le_pow_right (by decide) (by omega)
      refine ⟨2, ?_, by omega, .inr ⟨1, rfl, hone⟩⟩
      rw [hzero]
      exact if_pos (hfits hone)
    · have hdouble : 2 ^ (k + 1) ≤ width.limit := by
        rw [hcur, hk, hlimit] at hlt
        rw [hlimit]
        exact Nat.pow_le_pow_right (by decide) (Nat.succ_le_of_lt ((Nat.pow_lt_pow_iff_right (by decide)).mp hlt))
      have hmax : max ≠ 0 := hk ▸ Nat.two_pow_pos k |>.ne'
      refine ⟨2 ^ (k + 1), ?_, ?_, .inr ⟨k + 1, rfl, hdouble⟩⟩
      · dsimp only
        rw [if_pos hmax, hk, ← Nat.pow_succ']
        exact if_pos (hfits hdouble)
      · rw [Nat.pow_succ]
        omega
  · rw [if_neg hcur]
    exact ⟨max, rfl, by have := h.le; omega, h.power⟩

theorem checkSize_full {width : Width} {max : Nat} (h : Room width width.limit max) :
    checkSize width width.limit max = none := by
  obtain ⟨l, hlimit, hbytes⟩ := width.limit_eq
  have hpos : 0 < width.limit := hlimit ▸ Nat.two_pow_pos _
  have hmax : max = width.limit := by
    have := h.le
    rcases h.power with hzero | ⟨k, -, hle⟩ <;> omega
  unfold checkSize
  rw [if_pos hmax.symm, hmax]
  dsimp only
  rw [if_pos hpos.ne', if_neg (by rw [Nat.mul_assoc]; omega)]

section Lists

variable {α β : Type} {R : α → α → Prop} {l : List α} {l' : List β} {pos : Nat} {a b : α}

theorem length_insertAt (a : α) : (insertAt l pos a).length = l.length + 1 := by
  rw [insertAt, List.length_append, List.length_cons, List.length_take, List.length_drop]
  omega

theorem mem_insertAt : b ∈ insertAt l pos a ↔ b = a ∨ b ∈ l := by
  conv_rhs => rw [← List.take_append_drop pos l]
  rw [insertAt, List.mem_append, List.mem_append, List.mem_cons]
  tauto

theorem pairwise_insertAt (h : l.Pairwise R) (hbefore : ∀ i < pos, ∀ b, l[i]? = some b → R b a)
    (hafter : ∀ i, pos ≤ i → ∀ b, l[i]? = some b → R a b) : (insertAt l pos a).Pairwise R := by
  rw [← List.take_append_drop pos l, List.pairwise_append] at h
  obtain ⟨htake, hdrop, hcross⟩ := h
  have hlast : ∀ b ∈ l.drop pos, R a b := by
    intro b hb
    obtain ⟨i, hi⟩ := List.mem_iff_getElem?.mp hb
    rw [List.getElem?_drop] at hi
    exact hafter _ (Nat.le_add_right pos i) b hi
  have hfirst : ∀ b ∈ l.take pos, R b a := by
    intro b hb
    obtain ⟨i, hi⟩ := List.mem_iff_getElem?.mp hb
    rw [List.getElem?_take] at hi
    split at hi
    · exact hbefore i ‹_› b hi
    · cases hi
  refine List.pairwise_append.mpr ⟨htake, List.pairwise_cons.mpr ⟨hlast, hdrop⟩, fun b hb c hc => ?_⟩
  rcases List.mem_cons.mp hc with rfl | hc
  · exact hfirst b hb
  · exact hcross b hb c hc

theorem zip_insertAt (hlength : l.length = l'.length) (a : α) (b : β) :
    (insertAt l pos a).zip (insertAt l' pos b) = insertAt (l.zip l') pos (a, b) := by
  have htake : (l.take pos).length = (l'.take pos).length := by
    rw [List.length_take, List.length_take, hlength]
  rw [insertAt, insertAt, List.zip_append htake, List.zip_cons_cons, insertAt]
  unfold List.zip
  rw [List.take_zipWith, List.drop_zipWith]

theorem split_at (h : l[pos]? = some a) : l = l.take pos ++ a :: l.drop (pos + 1) := by
  obtain ⟨hlt, rfl⟩ := List.getElem?_eq_some_iff.mp h
  rw [← List.drop_eq_getElem_cons hlt, List.take_append_drop]

theorem mem_removeAt (hnodup : l.Nodup) (h : l[pos]? = some a) : b ∈ removeAt l pos ↔ b ∈ l ∧ b ≠ a := by
  have hsplit := split_at h
  rw [hsplit, List.perm_middle.nodup_iff, List.nodup_cons] at hnodup
  have hnot : a ∉ removeAt l pos := hnodup.1
  have hmem : b ∈ l ↔ b ∈ l.take pos ∨ b = a ∨ b ∈ l.drop (pos + 1) := by
    rw [← List.mem_cons, ← List.mem_append, ← hsplit]
  rw [hmem]
  unfold removeAt at hnot ⊢
  rw [List.mem_append] at hnot ⊢
  constructor
  · intro hb
    refine ⟨hb.imp_right .inr, ?_⟩
    rintro rfl
    exact hnot hb
  · rintro ⟨hb | rfl | hb, hne⟩
    · exact .inl hb
    · exact absurd rfl hne
    · exact .inr hb

theorem pairwise_removeAt (h : l.Pairwise R) : (removeAt l pos).Pairwise R := by
  rw [removeAt, ← List.eraseIdx_eq_take_drop_succ]
  exact h.eraseIdx pos

theorem length_removeAt : (removeAt l pos).length ≤ l.length := by
  rw [removeAt, ← List.eraseIdx_eq_take_drop_succ]
  exact List.length_eraseIdx_le l pos

theorem zip_removeAt (hlength : l.length = l'.length) :
    (removeAt l pos).zip (removeAt l' pos) = removeAt (l.zip l') pos := by
  have htake : (l.take pos).length = (l'.take pos).length := by
    rw [List.length_take, List.length_take, hlength]
  rw [removeAt, removeAt, List.zip_append htake, removeAt]
  unfold List.zip
  rw [List.take_zipWith, List.drop_zipWith]

end Lists

section Searches

variable {α : Type} {c : α → Ordering} {l : List α}

/-- A search for an element that is compared with those of a list. -/
def look (c : α → Ordering) (l : List α) : Found := search (fun i => l[i]?.elim .eq c) l.length 0 l.length

theorem look_cases (h : l.Pairwise fun a b => (c b = .gt → c a = .gt) ∧ (c a = .lt → c b = .lt)) :
    (∃ pos a, look c l = .hit pos ∧ l[pos]? = some a ∧ c a = .eq) ∨
      ∃ pos, look c l = .miss pos ∧ (∀ i < pos, ∀ a, l[i]? = some a → c a = .gt) ∧
        ∀ i, pos ≤ i → ∀ a, l[i]? = some a → c a = .lt := by
  have hat {i : Nat} (hi : i < l.length) : (l[i]?.elim .eq c) = c l[i] := by
    rw [List.getElem?_eq_getElem hi]
    rfl
  have hpair {i j : Nat} (hij : i < j) (hj : j < l.length) :=
    List.pairwise_iff_getElem.mp h i j (hij.trans hj) hj hij
  have hordered : Ordered (fun i => l[i]?.elim .eq c) l.length := by
    refine ⟨fun i j hij hj => ?_, fun i j hij hj => ?_⟩
    · rw [hat hj, hat (hij.trans hj)]
      exact (hpair hij hj).1
    · rw [hat hj, hat (hij.trans hj)]
      exact (hpair hij hj).2
  have hmeets := search_spec hordered (Nat.zero_le l.length) (Nat.le_refl _) (Nat.le_refl (l.length - 0))
    (fun _ h => absurd h (Nat.not_lt_zero _)) fun i hle hlt => absurd hlt (Nat.not_lt.mpr hle)
  change Meets _ l.length (look c l) at hmeets
  cases hlook : look c l with
  | hit pos =>
    rw [hlook] at hmeets
    obtain ⟨hlt, heq⟩ := hmeets
    exact .inl ⟨pos, l[pos], rfl, List.getElem?_eq_getElem hlt, (hat hlt).symm.trans heq⟩
  | miss pos =>
    rw [hlook] at hmeets
    obtain ⟨hle, hbefore, hafter⟩ := hmeets
    refine .inr ⟨pos, rfl, fun i hi a ha => ?_, fun i hi a ha => ?_⟩
    · obtain ⟨hlt, rfl⟩ := List.getElem?_eq_some_iff.mp ha
      exact (hat hlt).symm.trans (hbefore i hi)
    · obtain ⟨hlt, rfl⟩ := List.getElem?_eq_some_iff.mp ha
      exact (hat hlt).symm.trans (hafter i hi hlt)

theorem searchKey_cases {K : Type} [LinearOrder K] {keys : List K} (h : keys.Pairwise (· ≤ ·)) (k : K) :
    (∃ pos, searchKey keys k = .hit pos ∧ keys[pos]? = some k) ∨
      ∃ pos, searchKey keys k = .miss pos ∧ k ∉ keys ∧ (∀ i < pos, ∀ a, keys[i]? = some a → a < k) ∧
        ∀ i, pos ≤ i → ∀ a, keys[i]? = some a → k < a := by
  have hsteady : keys.Pairwise fun a b =>
      (compare k b = .gt → compare k a = .gt) ∧ (compare k a = .lt → compare k b = .lt) := by
    refine h.imp fun {a b} hab => ⟨fun hb => ?_, fun ha => ?_⟩
    · exact compare_gt_iff_gt.mpr (lt_of_le_of_lt hab (compare_gt_iff_gt.mp hb))
    · exact compare_lt_iff_lt.mpr (lt_of_lt_of_le (compare_lt_iff_lt.mp ha) hab)
  rcases look_cases hsteady with ⟨pos, a, hhit, ha, heq⟩ | ⟨pos, hmiss, hbefore, hafter⟩
  · rw [compare_eq_iff_eq] at heq
    exact .inl ⟨pos, hhit, heq ▸ ha⟩
  · have hlt : ∀ i < pos, ∀ a, keys[i]? = some a → a < k := fun i hi a ha => compare_gt_iff_gt.mp (hbefore i hi a ha)
    have hgt : ∀ i, pos ≤ i → ∀ a, keys[i]? = some a → k < a := fun i hi a ha =>
      compare_lt_iff_lt.mp (hafter i hi a ha)
    refine .inr ⟨pos, hmiss, fun hk => ?_, hlt, hgt⟩
    obtain ⟨i, hi⟩ := List.mem_iff_getElem?.mp hk
    rcases Nat.lt_or_ge i pos with hlt' | hge
    · exact lt_irrefl k (hlt i hlt' k hi)
    · exact lt_irrefl k (hgt i hge k hi)

theorem hasKey_iff {K : Type} [LinearOrder K] {keys : List K} (h : keys.Pairwise (· ≤ ·)) (k : K) :
    hasKey keys k = true ↔ k ∈ keys := by
  unfold hasKey
  rcases searchKey_cases h k with ⟨pos, hhit, hk⟩ | ⟨pos, hmiss, hk, -, -⟩
  · rw [hhit]
    exact iff_of_true rfl (List.mem_of_getElem? hk)
  · rw [hmiss]
    exact iff_of_false Bool.false_ne_true hk

end Searches

section Sets

variable {K : Type} [LinearOrder K]

inductive SetOp (K : Type) where
  | add (k : K)
  | hasKey (k : K)
  | remove (k : K)

def SetOp.step (width : Width) (st : SortedSet K) : SetOp K → Option (SortedSet K × Bool)
  | .add k => st.add width k
  | .hasKey k => some (st, SortedArrays.hasKey st.keys k)
  | .remove k => some (st.remove k)

/-- A key that is added is there, or the arrays have not their largest size. -/
def SetOp.Fits (width : Width) (st : SortedSet K) : SetOp K → Prop
  | .add k => k ∈ st.keys ∨ st.keys.length < width.limit
  | _ => True

def SetOp.Spec (s : Set K) (op : SetOp K) (s' : Set K) (r : Bool) : Prop :=
  match op with
  | .add k => s' = insert k s ∧ (r = true ↔ k ∉ s)
  | .hasKey k => s' = s ∧ (r = true ↔ k ∈ s)
  | .remove k => s' = s \ {k} ∧ (r = true ↔ k ∈ s)

structure SetRep (width : Width) (st : SortedSet K) (s : Set K) : Prop where
  sorted : st.keys.Pairwise (· < ·)
  room : Room width st.keys.length st.max
  mem : ∀ k, k ∈ st.keys ↔ k ∈ s

variable {width : Width} {st : SortedSet K} {s : Set K}

theorem room_empty (width : Width) : Room width 0 0 := ⟨Nat.le_refl 0, .inl rfl⟩

theorem setRep_empty : SetRep width (SortedSet.empty : SortedSet K) ∅ :=
  ⟨List.Pairwise.nil, room_empty width, fun k => iff_of_false List.not_mem_nil (Set.notMem_empty k)⟩

theorem SetRep.le (h : SetRep width st s) : st.keys.Pairwise (· ≤ ·) := h.sorted.imp le_of_lt

theorem SetRep.add (h : SetRep width st s) {k : K} (hfits : (SetOp.add k).Fits width st) :
    ∃ st' r s', st.add width k = some (st', r) ∧ (SetOp.add k).Spec s s' r ∧ SetRep width st' s' := by
  unfold SortedSet.add
  rcases searchKey_cases h.le k with ⟨pos, hhit, hk⟩ | ⟨pos, hmiss, hk, hbefore, hafter⟩
  · have hmem : k ∈ s := (h.mem k).mp (List.mem_of_getElem? hk)
    rw [hhit]
    refine ⟨st, false, s, rfl, ⟨(Set.insert_eq_of_mem hmem).symm, iff_of_false (by decide) (not_not.mpr hmem)⟩, h⟩
  · obtain ⟨max, hmax, hroom⟩ := checkSize_room h.room (hfits.resolve_left hk)
    rw [hmiss]
    dsimp only
    rw [hmax]
    refine ⟨_, _, insert k s, rfl, ⟨rfl, iff_of_true rfl fun hs => hk ((h.mem k).mpr hs)⟩,
      pairwise_insertAt h.sorted hbefore hafter, (length_insertAt k).symm ▸ hroom, fun k' => ?_⟩
    rw [mem_insertAt, h.mem k', Set.mem_insert_iff]

theorem SetRep.remove (h : SetRep width st s) (k : K) :
    (SetOp.remove k).Spec s (s \ {k}) (st.remove k).2 ∧ SetRep width (st.remove k).1 (s \ {k}) := by
  unfold SortedSet.remove
  rcases searchKey_cases h.le k with ⟨pos, hhit, hk⟩ | ⟨pos, hmiss, hk, -, -⟩
  · rw [hhit]
    refine ⟨⟨rfl, iff_of_true rfl ((h.mem k).mp (List.mem_of_getElem? hk))⟩, pairwise_removeAt h.sorted,
      ⟨length_removeAt.trans h.room.le, h.room.power⟩, fun k' => ?_⟩
    rw [mem_removeAt (h.sorted.imp ne_of_lt) hk, h.mem k', Set.mem_sdiff, Set.mem_singleton_iff]
  · rw [hmiss]
    have hs : k ∉ s := fun hs => hk ((h.mem k).mpr hs)
    exact ⟨⟨rfl, iff_of_false Bool.false_ne_true hs⟩, (Set.sdiff_singleton_eq_self hs).symm ▸ h⟩

theorem SetRep.step (h : SetRep width st s) (op : SetOp K) (hfits : op.Fits width st) :
    ∃ st' r s', op.step width st = some (st', r) ∧ op.Spec s s' r ∧ SetRep width st' s' := by
  cases op with
  | add k => exact h.add hfits
  | hasKey k => exact ⟨st, _, s, rfl, ⟨rfl, (hasKey_iff h.le k).trans (h.mem k)⟩, h⟩
  | remove k => exact ⟨_, _, _, rfl, h.remove k⟩

end Sets

section Pairs

variable {K V : Type}

def SortedMap.pairs (st : SortedMap K V) : List (K × V) := st.keys.zip st.values

/-- The values are beside the keys, and there is room for them. -/
structure Beside (width : Width) (st : SortedMap K V) : Prop where
  length : st.keys.length = st.values.length
  room : Room width st.keys.length st.max

variable {width : Width} {st : SortedMap K V} {k : K} {v v' : V} {pos : Nat}

theorem beside_empty : Beside width (SortedMap.empty : SortedMap K V) := ⟨rfl, room_empty width⟩

theorem Beside.keys_eq (h : Beside width st) : st.keys = st.pairs.map Prod.fst :=
  (List.map_fst_zip h.length.le).symm

theorem Beside.pairs_eq (h : Beside width st) (hk : st.keys[pos]? = some k) :
    ∃ v, st.values[pos]? = some v ∧ st.pairs[pos]? = some (k, v) := by
  have hlt : pos < st.values.length := h.length ▸ (List.getElem?_eq_some_iff.mp hk).1
  exact ⟨st.values[pos], List.getElem?_eq_getElem hlt,
    List.getElem?_zip_eq_some.mpr ⟨hk, List.getElem?_eq_getElem hlt⟩⟩

theorem Beside.mem_keys (h : Beside width st) : k ∈ st.keys ↔ ∃ v, (k, v) ∈ st.pairs := by
  rw [h.keys_eq, List.mem_map]
  exact ⟨fun ⟨⟨_, v⟩, hp, hk⟩ => ⟨v, hk ▸ hp⟩, fun ⟨v, hv⟩ => ⟨(k, v), hv, rfl⟩⟩

theorem Beside.insert (h : Beside width st) (hlt : st.keys.length < width.limit) (pos : Nat) (k : K) (v : V) :
    ∃ st', st.insert width pos k v = some (st', true) ∧ Beside width st' ∧ st'.keys = insertAt st.keys pos k ∧
      st'.pairs = insertAt st.pairs pos (k, v) := by
  obtain ⟨max, hmax, hroom⟩ := checkSize_room h.room hlt
  unfold SortedMap.insert
  rw [hmax]
  refine ⟨_, rfl, ⟨?_, (length_insertAt k).symm ▸ hroom⟩, rfl, zip_insertAt h.length k v⟩
  rw [length_insertAt, length_insertAt, h.length]

theorem Beside.set (h : Beside width st) (hnodup : st.pairs.Nodup) (hk : st.keys[pos]? = some k)
    (hv : st.values[pos]? = some v) (v' : V) :
    Beside width { st with values := st.values.set pos v' } ∧
      ∀ p, p ∈ ({ st with values := st.values.set pos v' } : SortedMap K V).pairs ↔
        p = (k, v') ∨ p ∈ st.pairs ∧ p ≠ (k, v) := by
  refine ⟨⟨h.length.trans List.length_set.symm, h.room⟩, fun p => ?_⟩
  have hlt : pos < st.values.length := (List.getElem?_eq_some_iff.mp hv).1
  have hpair : st.pairs[pos]? = some (k, v) := List.getElem?_zip_eq_some.mpr ⟨hk, hv⟩
  have hset : ({ st with values := st.values.set pos v' } : SortedMap K V).pairs =
      st.pairs.take pos ++ (k, v') :: st.pairs.drop (pos + 1) := by
    have htake : (st.keys.take pos).length = (st.values.take pos).length := by
      rw [List.length_take, List.length_take, h.length]
    show st.keys.zip (st.values.set pos v') = _
    rw [List.set_eq_take_append_cons_drop, if_pos hlt]
    conv_lhs => rw [split_at hk]
    rw [List.zip_append htake, List.zip_cons_cons]
    unfold SortedMap.pairs List.zip
    rw [List.take_zipWith, List.drop_zipWith]
  rw [hset, ← mem_removeAt hnodup hpair, removeAt, List.mem_append, List.mem_append, List.mem_cons]
  tauto

variable [LinearOrder K]

theorem Beside.remove (h : Beside width st) (hkeys : st.keys.Pairwise (· ≤ ·)) (hnodup : st.pairs.Nodup) (k : K) :
    Beside width (st.remove k).1 ∧ (st.remove k).1.pairs.Sublist st.pairs ∧
      (((st.remove k).2 = true ∧ ∃ v, (k, v) ∈ st.pairs ∧ ∀ p, p ∈ (st.remove k).1.pairs ↔ p ∈ st.pairs ∧ p ≠ (k, v)) ∨
        ((st.remove k).2 = false ∧ (st.remove k).1 = st ∧ k ∉ st.keys)) := by
  unfold SortedMap.remove
  rcases searchKey_cases hkeys k with ⟨pos, hhit, hk⟩ | ⟨pos, hmiss, hk, -, -⟩
  · obtain ⟨v, -, hpair⟩ := h.pairs_eq hk
    have hpairs : (removeAt st.keys pos).zip (removeAt st.values pos) = removeAt st.pairs pos := zip_removeAt h.length
    rw [hhit]
    refine ⟨⟨?_, length_removeAt.trans h.room.le, h.room.power⟩, ?_,
      .inl ⟨rfl, v, List.mem_of_getElem? hpair, fun p => ?_⟩⟩
    · show (removeAt st.keys pos).length = (removeAt st.values pos).length
      rw [removeAt, removeAt, ← List.eraseIdx_eq_take_drop_succ, ← List.eraseIdx_eq_take_drop_succ,
        List.length_eraseIdx, List.length_eraseIdx, h.length]
    · show ((removeAt st.keys pos).zip (removeAt st.values pos)).Sublist st.pairs
      rw [hpairs, removeAt, ← List.eraseIdx_eq_take_drop_succ]
      exact List.eraseIdx_sublist st.pairs pos
    · show p ∈ (removeAt st.keys pos).zip (removeAt st.values pos) ↔ _
      rw [hpairs]
      exact mem_removeAt hnodup hpair
  · rw [hmiss]
    exact ⟨h, .refl _, .inr ⟨rfl, rfl, hk⟩⟩

theorem Beside.find (h : Beside width st) (hkeys : st.keys.Pairwise (· ≤ ·)) (default : V) (k : K) :
    (k, st.find default k) ∈ st.pairs ∨ (st.find default k = default ∧ k ∉ st.keys) := by
  unfold SortedMap.find
  rcases searchKey_cases hkeys k with ⟨pos, hhit, hk⟩ | ⟨pos, hmiss, hk, -, -⟩
  · obtain ⟨v, hv, hpair⟩ := h.pairs_eq hk
    rw [hhit]
    dsimp only
    rw [List.getD_eq_getElem?_getD, hv]
    exact .inl (List.mem_of_getElem? hpair)
  · rw [hmiss]
    exact .inr ⟨rfl, hk⟩

end Pairs

inductive Result (V : Type) where
  | flag (b : Bool)
  | value (v : V)

section Maps

variable {K V : Type} [LinearOrder K]

inductive MapOp (K V : Type) where
  | add (k : K) (v : V)
  | replace (k : K) (v : V)
  | hasKey (k : K)
  | find (k : K)
  | remove (k : K)

def MapOp.step [DecidableEq V] (width : Width) (default : V) (st : SortedMap K V) :
    MapOp K V → Option (SortedMap K V × Result V)
  | .add k v => (st.add width k v).map (Prod.map id .flag)
  | .replace k v => (st.replace width k v).map (Prod.map id .flag)
  | .hasKey k => some (st, .flag (SortedArrays.hasKey st.keys k))
  | .find k => some (st, .value (st.find default k))
  | .remove k => some (Prod.map id .flag (st.remove k))

def MapOp.Fits (width : Width) (st : SortedMap K V) : MapOp K V → Prop
  | .add k _ | .replace k _ => k ∈ st.keys ∨ st.keys.length < width.limit
  | _ => True

def MapOp.Spec (default : V) (f : K → Option V) (op : MapOp K V) (f' : K → Option V) (r : Result V) : Prop :=
  match op with
  | .add k v => ∃ b, r = .flag b ∧ (b = true ↔ f k = none) ∧
      f' = if (f k).isNone then Function.update f k (some v) else f
  | .replace k v => ∃ b, r = .flag b ∧ (b = true ↔ f k ≠ some v) ∧ f' = Function.update f k (some v)
  | .hasKey k => ∃ b, r = .flag b ∧ (b = true ↔ f k ≠ none) ∧ f' = f
  | .find k => r = .value ((f k).getD default) ∧ f' = f
  | .remove k => ∃ b, r = .flag b ∧ (b = true ↔ f k ≠ none) ∧ f' = Function.update f k none

structure MapRep (width : Width) (st : SortedMap K V) (f : K → Option V) : Prop extends Beside width st where
  sorted : st.keys.Pairwise (· < ·)
  mem : ∀ k v, (k, v) ∈ st.pairs ↔ f k = some v

variable {width : Width} {st : SortedMap K V} {f : K → Option V} {k : K}

theorem mapRep_empty : MapRep width (SortedMap.empty : SortedMap K V) fun _ => none :=
  ⟨beside_empty, List.Pairwise.nil, fun _ _ => iff_of_false List.not_mem_nil nofun⟩

theorem MapRep.le (h : MapRep width st f) : st.keys.Pairwise (· ≤ ·) := h.sorted.imp le_of_lt

theorem MapRep.nodup (h : MapRep width st f) : st.pairs.Nodup :=
  List.Nodup.of_map Prod.fst (h.keys_eq ▸ h.sorted.imp ne_of_lt)

theorem MapRep.mem_keys_iff (h : MapRep width st f) : k ∈ st.keys ↔ f k ≠ none := by
  rw [h.toBeside.mem_keys, Option.ne_none_iff_exists']
  exact exists_congr fun v => h.mem k v

theorem MapRep.insert (h : MapRep width st f) (hlt : st.keys.length < width.limit) {pos : Nat} (v : V)
    (hk : k ∉ st.keys) (hbefore : ∀ i < pos, ∀ a, st.keys[i]? = some a → a < k)
    (hafter : ∀ i, pos ≤ i → ∀ a, st.keys[i]? = some a → k < a) :
    ∃ st', st.insert width pos k v = some (st', true) ∧ MapRep width st' (Function.update f k (some v)) := by
  obtain ⟨st', hinsert, hbeside, hkeys, hpairs⟩ := h.toBeside.insert hlt pos k v
  refine ⟨st', hinsert, hbeside, hkeys ▸ pairwise_insertAt h.sorted hbefore hafter, fun k' v' => ?_⟩
  have hnone : f k = none := not_not.mp (mt (h.mem_keys_iff).mpr hk)
  rw [hpairs, mem_insertAt, h.mem k' v', Prod.mk.injEq]
  by_cases heq : k' = k
  · subst heq
    rw [Function.update_self, hnone, Option.some.injEq]
    simp [eq_comm]
  · rw [Function.update_of_ne heq]
    simp [heq]

theorem MapRep.add (h : MapRep width st f) {v : V} (hfits : (MapOp.add k v).Fits width st) :
    ∃ st' r, st.add width k v = some (st', r) ∧ (r = true ↔ f k = none) ∧
      MapRep width st' (if (f k).isNone then Function.update f k (some v) else f) := by
  unfold SortedMap.add
  rcases searchKey_cases h.le k with ⟨pos, hhit, hk⟩ | ⟨pos, hmiss, hk, hbefore, hafter⟩
  · have hsome : f k ≠ none := (h.mem_keys_iff).mp (List.mem_of_getElem? hk)
    rw [hhit, if_neg (by simpa using hsome)]
    exact ⟨st, false, rfl, iff_of_false Bool.false_ne_true hsome, h⟩
  · have hnone : f k = none := not_not.mp (mt (h.mem_keys_iff).mpr hk)
    obtain ⟨st', hinsert, hrep⟩ := h.insert (hfits.resolve_left hk) v hk hbefore hafter
    rw [hmiss, if_pos (by rw [hnone]; rfl)]
    exact ⟨st', true, hinsert, iff_of_true rfl hnone, hrep⟩

theorem MapRep.replace [DecidableEq V] (h : MapRep width st f) {v : V} (hfits : (MapOp.replace k v).Fits width st) :
    ∃ st' r, st.replace width k v = some (st', r) ∧ (r = true ↔ f k ≠ some v) ∧
      MapRep width st' (Function.update f k (some v)) := by
  unfold SortedMap.replace
  rcases searchKey_cases h.le k with ⟨pos, hhit, hk⟩ | ⟨pos, hmiss, hk, hbefore, hafter⟩
  · obtain ⟨v₀, hv₀, hpair⟩ := h.toBeside.pairs_eq hk
    have hf : f k = some v₀ := (h.mem k v₀).mp (List.mem_of_getElem? hpair)
    rw [hhit]
    dsimp only
    rw [hv₀, hf]
    by_cases heq : some v₀ = some v
    · rw [if_pos heq]
      refine ⟨st, false, rfl, iff_of_false Bool.false_ne_true (not_not.mpr heq), ?_⟩
      rwa [← heq, ← hf, Function.update_eq_self]
    · rw [if_neg heq]
      obtain ⟨hbeside, hset⟩ := h.toBeside.set h.nodup hk hv₀ v
      refine ⟨_, true, rfl, iff_of_true rfl heq, hbeside, h.sorted, fun k' v' => ?_⟩
      rw [hset, h.mem k' v', Prod.mk.injEq]
      by_cases hkk : k' = k
      · subst hkk
        rw [Function.update_self, hf]
        simp only [Option.some.injEq, true_and, ne_eq, Prod.mk.injEq]
        constructor
        · rintro (rfl | ⟨rfl, hne⟩)
          · rfl
          · exact absurd rfl hne
        · exact fun hv => .inl hv.symm
      · rw [Function.update_of_ne hkk]
        simp [hkk]
  · have hnone : f k = none := not_not.mp (mt (h.mem_keys_iff).mpr hk)
    obtain ⟨st', hinsert, hrep⟩ := h.insert (hfits.resolve_left hk) v hk hbefore hafter
    rw [hmiss]
    exact ⟨st', true, hinsert, iff_of_true rfl (by rw [hnone]; nofun), hrep⟩

theorem MapRep.remove (h : MapRep width st f) (k : K) :
    ((st.remove k).2 = true ↔ f k ≠ none) ∧ MapRep width (st.remove k).1 (Function.update f k none) := by
  obtain ⟨hbeside, hsub, hremove⟩ := h.toBeside.remove h.le h.nodup k
  rcases hremove with ⟨htrue, v, hv, hmem⟩ | ⟨hfalse, hst, hk⟩
  · have hf : f k = some v := (h.mem k v).mp hv
    refine ⟨iff_of_true htrue (by rw [hf]; nofun), hbeside, ?_, fun k' v' => ?_⟩
    · rw [hbeside.keys_eq]
      exact (h.keys_eq ▸ h.sorted).sublist (hsub.map Prod.fst)
    · rw [hmem, h.mem k' v', ne_eq, Prod.mk.injEq]
      by_cases heq : k' = k
      · subst heq
        rw [Function.update_self, hf]
        simp [eq_comm]
      · rw [Function.update_of_ne heq]
        simp [heq]
  · have hnone : f k = none := not_not.mp (mt (h.mem_keys_iff).mpr hk)
    rw [hst, hfalse, ← hnone, Function.update_eq_self]
    exact ⟨iff_of_false Bool.false_ne_true (not_not.mpr rfl), h⟩

theorem MapRep.step [DecidableEq V] (h : MapRep width st f) (default : V) (op : MapOp K V) (hfits : op.Fits width st) :
    ∃ st' r f', op.step width default st = some (st', r) ∧ op.Spec default f f' r ∧ MapRep width st' f' := by
  cases op with
  | add k v =>
    obtain ⟨st', r, hadd, hr, hrep⟩ := h.add hfits
    exact ⟨st', .flag r, _, by rw [MapOp.step, hadd]; rfl, ⟨r, rfl, hr, rfl⟩, hrep⟩
  | replace k v =>
    obtain ⟨st', r, hreplace, hr, hrep⟩ := h.replace hfits
    exact ⟨st', .flag r, _, by rw [MapOp.step, hreplace]; rfl, ⟨r, rfl, hr, rfl⟩, hrep⟩
  | hasKey k => exact ⟨st, _, f, rfl, ⟨_, rfl, (hasKey_iff h.le k).trans h.mem_keys_iff, rfl⟩, h⟩
  | find k =>
    refine ⟨st, _, f, rfl, ⟨?_, rfl⟩, h⟩
    rcases h.toBeside.find h.le default k with hmem | ⟨hdefault, hk⟩
    · rw [(h.mem _ _).mp hmem]
      rfl
    · rw [hdefault, not_not.mp (mt (h.mem_keys_iff).mpr hk)]
      rfl
  | remove k =>
    obtain ⟨hr, hrep⟩ := h.remove k
    exact ⟨_, _, _, rfl, ⟨_, rfl, hr, rfl⟩, hrep⟩

end Maps

section Multimaps

variable {K V : Type} [LinearOrder K] [LinearOrder V]

inductive MultiOp (K V : Type) where
  | addPair (k : K) (v : V)
  | hasKey (k : K)
  | find (k : K)
  | remove (k : K)

def MultiOp.step (width : Width) (default : V) (st : SortedMap K V) : MultiOp K V → Option (SortedMap K V × Result V)
  | .addPair k v => (st.addPair width k v).map (Prod.map id .flag)
  | .hasKey k => some (st, .flag (SortedArrays.hasKey st.keys k))
  | .find k => some (st, .value (st.find default k))
  | .remove k => some (Prod.map id .flag (st.remove k))

def MultiOp.Fits (width : Width) (st : SortedMap K V) : MultiOp K V → Prop
  | .addPair k v => (k, v) ∈ st.pairs ∨ st.keys.length < width.limit
  | _ => True

def MultiOp.Spec (default : V) (s : Set (K × V)) (op : MultiOp K V) (s' : Set (K × V)) (r : Result V) : Prop :=
  match op with
  | .addPair k v => ∃ b, r = .flag b ∧ (b = true ↔ (k, v) ∉ s) ∧ s' = insert (k, v) s
  | .hasKey k => ∃ b, r = .flag b ∧ (b = true ↔ ∃ v, (k, v) ∈ s) ∧ s' = s
  | .find k => ∃ v, r = .value v ∧ ((k, v) ∈ s ∨ v = default ∧ ∀ v, (k, v) ∉ s) ∧ s' = s
  | .remove k => (r = .flag true ∧ ∃ v, (k, v) ∈ s ∧ s' = s \ {(k, v)}) ∨ (r = .flag false ∧ s' = s ∧ ∀ v, (k, v) ∉ s)

def Before (p q : K × V) : Prop := p.1 < q.1 ∨ p.1 = q.1 ∧ p.2 < q.2

structure MultiRep (width : Width) (st : SortedMap K V) (s : Set (K × V)) : Prop extends Beside width st where
  sorted : st.pairs.Pairwise Before
  mem : ∀ p, p ∈ st.pairs ↔ p ∈ s

variable {width : Width} {st : SortedMap K V} {s : Set (K × V)} {p q : K × V}

theorem multiRep_empty : MultiRep width (SortedMap.empty : SortedMap K V) ∅ :=
  ⟨beside_empty, List.Pairwise.nil, fun p => iff_of_false List.not_mem_nil (Set.notMem_empty p)⟩

theorem MultiRep.le (h : MultiRep width st s) : st.keys.Pairwise (· ≤ ·) := by
  rw [h.keys_eq, List.pairwise_map]
  exact h.sorted.imp fun hbefore => hbefore.elim le_of_lt fun heq => heq.1.le

theorem MultiRep.nodup (h : MultiRep width st s) : st.pairs.Nodup :=
  h.sorted.imp fun hbefore heq => hbefore.elim (heq ▸ lt_irrefl _) fun hlt => lt_irrefl _ (heq ▸ hlt.2)

def pairOrder (p q : K × V) : Ordering := (compare p.1 q.1).then (compare p.2 q.2)

theorem pairOrder_gt : pairOrder p q = .gt ↔ Before q p := by
  rw [pairOrder, Ordering.then_eq_gt, compare_gt_iff_gt, compare_eq_iff_eq, compare_gt_iff_gt, Before, eq_comm]

theorem pairOrder_lt : pairOrder p q = .lt ↔ Before p q := by
  rw [pairOrder, Ordering.then_eq_lt, compare_lt_iff_lt, compare_eq_iff_eq, compare_lt_iff_lt, Before]

theorem pairOrder_eq : pairOrder p q = .eq ↔ p = q := by
  rw [pairOrder, Ordering.then_eq_eq, compare_eq_iff_eq, compare_eq_iff_eq, Prod.ext_iff]

theorem Before.trans {r : K × V} (hpq : Before p q) (hqr : Before q r) : Before p r := by
  rcases hpq with hpq | ⟨hpq, hpq'⟩
  · exact .inl (hqr.elim hpq.trans fun heq => heq.1 ▸ hpq)
  · exact hqr.elim (fun hlt => .inl (hpq ▸ hlt)) fun heq => .inr ⟨hpq.trans heq.1, hpq'.trans heq.2⟩

theorem search_pairs (h : Beside width st) (k : K) (v : V) :
    search (pairCmp st.keys st.values k v) st.keys.length 0 st.keys.length = look (pairOrder (k, v)) st.pairs := by
  have hlength : st.pairs.length = st.keys.length := by
    rw [h.keys_eq, List.length_map]
  unfold look
  rw [hlength]
  congr 1
  funext i
  rcases Nat.lt_or_ge i st.keys.length with hlt | hge
  · obtain ⟨v', hv', hpair⟩ := h.pairs_eq (List.getElem?_eq_getElem hlt)
    rw [hpair, pairCmp, keyCmp, keyCmp, List.getElem?_eq_getElem hlt, hv']
    rfl
  · rw [pairCmp, keyCmp, keyCmp, List.getElem?_eq_none hge, List.getElem?_eq_none (h.length ▸ hge),
      List.getElem?_eq_none (hlength.symm ▸ hge)]
    rfl

theorem MultiRep.addPair (h : MultiRep width st s) {k : K} {v : V} (hfits : (MultiOp.addPair k v).Fits width st) :
    ∃ st' r, st.addPair width k v = some (st', r) ∧ (r = true ↔ (k, v) ∉ s) ∧
      MultiRep width st' (insert (k, v) s) := by
  unfold SortedMap.addPair
  rw [search_pairs h.toBeside k v]
  have hsteady : st.pairs.Pairwise fun p q =>
      (pairOrder (k, v) q = .gt → pairOrder (k, v) p = .gt) ∧ (pairOrder (k, v) p = .lt → pairOrder (k, v) q = .lt) :=
    h.sorted.imp fun hpq => ⟨fun hq => pairOrder_gt.mpr (hpq.trans (pairOrder_gt.mp hq)),
      fun hp => pairOrder_lt.mpr ((pairOrder_lt.mp hp).trans hpq)⟩
  rcases look_cases hsteady with ⟨pos, p, hhit, hp, heq⟩ | ⟨pos, hmiss, hbefore, hafter⟩
  · obtain rfl := pairOrder_eq.mp heq
    have hmem : (k, v) ∈ s := (h.mem _).mp (List.mem_of_getElem? hp)
    rw [hhit, Set.insert_eq_of_mem hmem]
    exact ⟨st, false, rfl, iff_of_false Bool.false_ne_true (not_not.mpr hmem), h⟩
  · have hnot : (k, v) ∉ st.pairs := by
      intro hmem
      obtain ⟨i, hi⟩ := List.mem_iff_getElem?.mp hmem
      have heq : pairOrder (k, v) (k, v) = .eq := pairOrder_eq.mpr rfl
      rcases Nat.lt_or_ge i pos with hlt | hge
      · exact absurd (heq.symm.trans (hbefore i hlt _ hi)) (by decide)
      · exact absurd (heq.symm.trans (hafter i hge _ hi)) (by decide)
    obtain ⟨st', hinsert, hbeside, -, hpairs⟩ := h.toBeside.insert (hfits.resolve_left hnot) pos k v
    rw [hmiss]
    refine ⟨st', true, hinsert, iff_of_true rfl (mt (h.mem _).mpr hnot), hbeside, ?_, fun p => ?_⟩
    · rw [hpairs]
      exact pairwise_insertAt h.sorted (fun i hi p hp => pairOrder_gt.mp (hbefore i hi p hp))
        fun i hi p hp => pairOrder_lt.mp (hafter i hi p hp)
    · rw [hpairs, mem_insertAt, h.mem, Set.mem_insert_iff]

theorem MultiRep.step (h : MultiRep width st s) (default : V) (op : MultiOp K V) (hfits : op.Fits width st) :
    ∃ st' r s', op.step width default st = some (st', r) ∧ op.Spec default s s' r ∧ MultiRep width st' s' := by
  have hkey (k : K) : k ∈ st.keys ↔ ∃ v, (k, v) ∈ s :=
    (h.toBeside.mem_keys).trans (exists_congr fun v => h.mem (k, v))
  cases op with
  | addPair k v =>
    obtain ⟨st', r, hadd, hr, hrep⟩ := h.addPair hfits
    exact ⟨st', .flag r, _, by rw [MultiOp.step, hadd]; rfl, ⟨r, rfl, hr, rfl⟩, hrep⟩
  | hasKey k => exact ⟨st, _, s, rfl, ⟨_, rfl, (hasKey_iff h.le k).trans (hkey k), rfl⟩, h⟩
  | find k =>
    refine ⟨st, _, s, rfl, ⟨_, rfl, ?_, rfl⟩, h⟩
    exact (h.toBeside.find h.le default k).imp (h.mem _).mp
      fun ⟨hdefault, hk⟩ => ⟨hdefault, not_exists.mp (mt (hkey k).mpr hk)⟩
  | remove k =>
    obtain ⟨hbeside, hsub, hremove⟩ := h.toBeside.remove h.le h.nodup k
    rcases hremove with ⟨htrue, v, hv, hmem⟩ | ⟨hfalse, hst, hk⟩
    · refine ⟨(st.remove k).1, .flag true, s \ {(k, v)}, ?_, .inl ⟨rfl, v, (h.mem _).mp hv, rfl⟩, hbeside,
        h.sorted.sublist hsub, fun p => ?_⟩
      · rw [MultiOp.step, ← htrue]
        rfl
      · rw [hmem, h.mem, Set.mem_sdiff, Set.mem_singleton_iff]
    · refine ⟨st, .flag false, s, ?_, .inr ⟨rfl, rfl, not_exists.mp (mt (hkey k).mpr hk)⟩, h⟩
      have hstep : st.remove k = (st, false) := Prod.ext hst hfalse
      rw [MultiOp.step, hstep]
      rfl

end Multimaps

open OperationRun

/-- The containers do what a set, a map and a multimap do, in every run that adds a key or a pair only while there is
room for another element in the largest block. -/
theorem sorted_arrays_agree {K V : Type} [LinearOrder K] [LinearOrder V] (width : Width) (default : V) :
    (∀ ops : List (SetOp K), Meets (SetOp.step width) (SetOp.Fits width) .empty ops → ∃ st rs s,
      run (SetOp.step width) .empty ops = some (st, rs) ∧ Spec SetOp.Spec ∅ ops s rs ∧ SetRep width st s) ∧
    (∀ ops : List (MapOp K V), Meets (MapOp.step width default) (MapOp.Fits width) .empty ops → ∃ st rs f,
      run (MapOp.step width default) .empty ops = some (st, rs) ∧ Spec (MapOp.Spec default) (fun _ => none) ops f rs ∧
        MapRep width st f) ∧
    ∀ ops : List (MultiOp K V), Meets (MultiOp.step width default) (MultiOp.Fits width) .empty ops → ∃ st rs s,
      run (MultiOp.step width default) .empty ops = some (st, rs) ∧ Spec (MultiOp.Spec default) ∅ ops s rs ∧
        MultiRep width st s :=
  ⟨fun _ h => run_refines (fun _ _ op hrep hfits => hrep.step op hfits) setRep_empty h,
    fun _ h => run_refines (fun _ _ op hrep hfits => hrep.step default op hfits) mapRep_empty h,
    fun _ h => run_refines (fun _ _ op hrep hfits => hrep.step default op hfits) multiRep_empty h⟩

/-- A pair that is there already, one in front of it, and a key with two values that is removed. -/
def fewPairs : List (MultiOp Int Int) := [.addPair 2 7, .addPair 2 7, .addPair 1 9, .addPair 2 5, .remove 2]

theorem few_pairs_agree : ∃ st rs s, run (MultiOp.step .eight (0 : Int)) .empty fewPairs = some (st, rs) ∧
    Spec (MultiOp.Spec 0) ∅ fewPairs s rs ∧ MultiRep .eight st s := by
  refine (sorted_arrays_agree .eight 0).2.2 fewPairs ⟨.inr (by decide), fun s r h => ?_⟩
  cases h
  refine ⟨.inr (by decide), fun s r h => ?_⟩
  cases h
  refine ⟨.inr (by decide), fun s r h => ?_⟩
  cases h
  refine ⟨.inr (by decide), fun s r h => ?_⟩
  cases h
  exact ⟨trivial, fun _ _ _ => trivial⟩

section Full

/-- The first numbers, one after the other. -/
def adds (n : Nat) : List (SetOp Int) := (List.range n).map fun (i : Nat) => .add (i : Int)

theorem run_adds {width : Width} {n : Nat} (h : n ≤ width.limit) :
    ∃ st rs, run (SetOp.step width) .empty (adds n) = some (st, rs) ∧ SetRep width st {k | 0 ≤ k ∧ k < n} ∧
      st.keys.length = n := by
  induction n with
  | zero =>
    have hempty : {k : Int | 0 ≤ k ∧ k < (0 : Nat)} = ∅ := by
      ext k
      exact iff_of_false (fun hk => by have := hk.1; have := hk.2; omega) (Set.notMem_empty k)
    exact ⟨.empty, [], rfl, hempty ▸ setRep_empty, rfl⟩
  | succ n ih =>
    obtain ⟨st, rs, hrun, hrep, hlength⟩ := ih (Nat.le_of_succ_le h)
    have hfits : (SetOp.add (n : Int)).Fits width st := .inr (hlength ▸ h)
    obtain ⟨st', r, s', hadd, ⟨rfl, -⟩, hrep'⟩ := hrep.add hfits
    have hinsert : insert (n : Int) {k : Int | 0 ≤ k ∧ k < n} = {k : Int | 0 ≤ k ∧ k < (n + 1 : Nat)} := by
      ext k
      simp only [Set.mem_insert_iff, Set.mem_ofPred_eq]
      omega
    rw [hinsert] at hrep'
    have hperm : st'.keys.Perm ((List.range (n + 1)).map fun (i : Nat) => (i : Int)) := by
      refine (List.perm_ext_iff_of_nodup (hrep'.sorted.imp ne_of_lt)
        ((List.nodup_range).map fun _ _ heq => Int.ofNat.inj heq)).mpr fun k => ?_
      rw [hrep'.mem, List.mem_map]
      constructor
      · rintro ⟨hle, hlt⟩
        exact ⟨k.toNat, List.mem_range.mpr (by omega), Int.toNat_of_nonneg hle⟩
      · rintro ⟨i, hi, rfl⟩
        exact ⟨Int.natCast_nonneg i, Int.ofNat_lt.mpr (List.mem_range.mp hi)⟩
    refine ⟨st', rs ++ [r], ?_, hrep', ?_⟩
    · rw [adds, List.range_succ, List.map_append, run_append]
      show (run (SetOp.step width) .empty (adds n)).bind _ = _
      rw [hrun]
      show ((SetOp.step width st (.add n)).bind _).map _ = _
      rw [SetOp.step, hadd]
      rfl
    · rw [hperm.length_eq, List.length_map, List.length_range]

/-- The arrays of 2 ^ 28 numbers do not grow. -/
theorem full_set_fails : ¬∀ ops : List (SetOp Int), ∃ st rs s,
    run (SetOp.step .four) .empty ops = some (st, rs) ∧ Spec SetOp.Spec ∅ ops s rs := by
  intro h
  obtain ⟨st, rs, hrun, hrep, hlength⟩ := run_adds (Nat.le_refl Width.four.limit)
  obtain ⟨st', rs', s, hrun', -⟩ := h (adds Width.four.limit ++ [.add (Width.four.limit : Int)])
  have hmiss : st.add .four (Width.four.limit : Int) = none := by
    unfold SortedSet.add
    rcases searchKey_cases hrep.le (Width.four.limit : Int) with ⟨pos, -, hk⟩ | ⟨pos, hmiss, -, -, -⟩
    · exact absurd ((hrep.mem _).mp (List.mem_of_getElem? hk)).2 (Int.lt_irrefl _)
    · rw [hmiss]
      dsimp only
      rw [hlength, checkSize_full (hlength ▸ hrep.room)]
      rfl
  rw [run_append, hrun] at hrun'
  change ((SetOp.step .four st (.add _)).bind _).map _ = _ at hrun'
  rw [SetOp.step, hmiss] at hrun'
  cases hrun'

end Full

end HashLink.SortedArrays
