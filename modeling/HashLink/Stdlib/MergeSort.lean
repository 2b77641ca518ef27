import HashLink.Lib.Rotation
import HashLink.Lib.StableSort

/-! The merge sort of `sort.h`, which needs no other array: two sorted parts are merged by cutting both, exchanging the
parts between the cuts with a rotation, and merging on both sides of it. The elements are a function of the index. An
access outside of the part that is sorted has no result here, and indexes are natural numbers: an array of elements of
four bytes or more whose size in bytes is an `int` has less than `2 ^ 29` of them, so their sums are in the range.

The sort keeps the order of equal elements. -/

namespace HashLink.MergeSort

section

variable {T : Type} (cmp : T → T → Int) (lo hi : Nat)

def read (arr : Nat → T) (i : Nat) : Option T := if lo ≤ i ∧ i < hi then some (arr i) else none

def write (arr : Nat → T) (i : Nat) (v : T) : Option (Nat → T) :=
  if lo ≤ i ∧ i < hi then some (Function.update arr i v) else none

def msCompare (arr : Nat → T) (a b : Nat) : Option Int := do
  return cmp (← read lo hi arr a) (← read lo hi arr b)

def msSwap (arr : Nat → T) (a b : Nat) : Option (Nat → T) := do
  let tmp ← read lo hi arr a
  write lo hi (← write lo hi arr a (← read lo hi arr b)) b tmp

/-- The loop of `ms_lower` and of `ms_upper`, which go to the right of `mid` on different conditions. -/
def cut (right : Nat → Option Bool) : Nat → Nat → Nat → Option Nat
  | 0, _, _ => none
  | fuel + 1, from_, len =>
    if 0 < len then do
      let half := len / 2
      let mid := from_ + half
      if ← right mid then cut right fuel (mid + 1) (len - half - 1) else cut right fuel from_ half
    else some from_

def msLower (arr : Nat → T) (from_ to_ val : Nat) : Option Nat :=
  cut (fun mid => (msCompare cmp lo hi arr mid val).map fun c => c < 0) (to_ - from_ + 1) from_ (to_ - from_)

def msUpper (arr : Nat → T) (from_ to_ val : Nat) : Option Nat :=
  cut (fun mid => (msCompare cmp lo hi arr val mid).map fun c => !decide (c < 0)) (to_ - from_ + 1) from_ (to_ - from_)

def msGcd (m n : Nat) : Nat := if n = 0 then m else msGcd n (m % n)
termination_by n
decreasing_by exact Nat.mod_lt m (by omega)

/-- The inner loop of `ms_rotate`, of the cycle that starts at `from + n`. -/
def rotateCycle (from_ mid to_ n : Nat) : Nat → (Nat → T) → Nat → Nat → Option ((Nat → T) × Nat)
  | 0, _, _, _ => none
  | fuel + 1, arr, p1, p2 =>
    if p2 = from_ + n then some (arr, p1)
    else do
      let arr ← write lo hi arr p1 (← read lo hi arr p2)
      let shift := mid - from_
      rotateCycle from_ mid to_ n fuel arr p2 (if shift < to_ - p2 then p2 + shift else from_ + (shift - (to_ - p2)))

/-- The outer loop of `ms_rotate`. -/
def rotateCycles (from_ mid to_ : Nat) : Nat → (Nat → T) → Option (Nat → T)
  | 0, arr => some arr
  | n + 1, arr => do
      let val ← read lo hi arr (from_ + n)
      let r ← rotateCycle lo hi from_ mid to_ n (to_ - from_ + 1) arr (from_ + n) (from_ + n + (mid - from_))
      rotateCycles from_ mid to_ n (← write lo hi r.1 r.2 val)

def msRotate (arr : Nat → T) (from_ mid to_ : Nat) : Option (Nat → T) :=
  if from_ = mid ∨ mid = to_ then some arr
  else rotateCycles lo hi from_ mid to_ (msGcd (to_ - from_) (mid - from_)) arr

/-- The cuts of `ms_do_merge`: half of the longer part, and as far in the other part. -/
def mergeCuts (arr : Nat → T) (from_ pivot to_ len1 len2 : Nat) : Option (Nat × Nat) :=
  if len2 < len1 then do
    let firstCut := from_ + len1 / 2
    return (firstCut, ← msLower cmp lo hi arr pivot to_ firstCut)
  else do
    let secondCut := pivot + len2 / 2
    return (← msUpper cmp lo hi arr from_ pivot secondCut, secondCut)

def msDoMerge : Nat → (Nat → T) → Nat → Nat → Nat → Nat → Nat → Option (Nat → T)
  | 0, _, _, _, _, _, _ => none
  | fuel + 1, arr, from_, pivot, to_, len1, len2 =>
    if len1 = 0 ∨ len2 = 0 then some arr
    else if len1 + len2 = 2 then do
      if (← msCompare cmp lo hi arr pivot from_) < 0 then msSwap lo hi arr pivot from_ else some arr
    else do
      let (firstCut, secondCut) ← mergeCuts cmp lo hi arr from_ pivot to_ len1 len2
      let len11 := firstCut - from_
      let len22 := secondCut - pivot
      let arr ← msRotate lo hi arr firstCut pivot secondCut
      let newMid := firstCut + len22
      let arr ← msDoMerge fuel arr from_ firstCut newMid len11 len22
      msDoMerge fuel arr newMid secondCut to_ (len1 - len11) (len2 - len22)

/-- The inner loop of the insertion sort, at `j`. -/
def sink (from_ : Nat) : Nat → (Nat → T) → Option (Nat → T)
  | 0, arr => some arr
  | j + 1, arr =>
    if from_ < j + 1 then do
      if (← msCompare cmp lo hi arr (j + 1) j) < 0 then sink from_ j (← msSwap lo hi arr j (j + 1)) else some arr
    else some arr

/-- The insertion sort, of `n` elements from `i` on. -/
def insertSort (from_ : Nat) : Nat → Nat → (Nat → T) → Option (Nat → T)
  | 0, _, arr => some arr
  | n + 1, i, arr => do insertSort from_ n (i + 1) (← sink cmp lo hi from_ i arr)

def mergeSortRec : Nat → (Nat → T) → Nat → Nat → Option (Nat → T)
  | 0, _, _, _ => none
  | fuel + 1, arr, from_, to_ =>
    if to_ < from_ + 12 then
      if to_ ≤ from_ then some arr else insertSort cmp lo hi from_ (to_ - (from_ + 1)) (from_ + 1) arr
    else do
      let middle := (from_ + to_) / 2
      let arr ← mergeSortRec fuel arr from_ middle
      let arr ← mergeSortRec fuel arr middle to_
      msDoMerge cmp lo hi (to_ - from_ + 1) arr from_ middle to_ (middle - from_) (to_ - middle)

/-- `merge_sort_rec` of the part from `from_` to `to_`, with accesses to this part only. -/
def mergeSort (arr : Nat → T) (from_ to_ : Nat) : Option (Nat → T) :=
  mergeSortRec cmp from_ to_ (to_ - from_ + 1) arr from_ to_

end

open Rotation

variable {i fuel : Nat}

section

variable {T : Type} {lo hi : Nat}

theorem read_eq (arr : Nat → T) (hlo : lo ≤ i) (hhi : i < hi) : read lo hi arr i = some (arr i) :=
  if_pos ⟨hlo, hhi⟩

theorem write_eq (arr : Nat → T) (v : T) (hlo : lo ≤ i) (hhi : i < hi) :
    write lo hi arr i v = some (Function.update arr i v) := if_pos ⟨hlo, hhi⟩

theorem msGcd_eq (m n : Nat) : msGcd m n = Nat.gcd n m := by
  induction n using Nat.strongRecOn generalizing m with
  | _ n ih =>
    rw [msGcd]
    split
    · next h => rw [h, Nat.gcd_zero_left]
    · next h => rw [ih (m % n) (Nat.mod_lt m (Nat.pos_of_ne_zero h)), Nat.gcd_rec n m]

/-- The first `j` places of a cycle have the elements of the places after them. -/
def Turned (from_ n s a j : Nat) (old arr : Nat → T) : Prop :=
  (∀ i < j, arr (from_ + place n s a i) = old (from_ + place n s a (i + 1))) ∧
    ∀ p, (∀ i < j, p ≠ from_ + place n s a i) → arr p = old p

variable {from_ mid to_ n s a j : Nat} {old arr : Nat → T}

theorem Turned.write (h : Turned from_ n s a j old arr) (hn : 0 < n) (hj : j < cycle n s) {v : T}
    (hv : v = old (from_ + place n s a (j + 1))) :
    Turned from_ n s a (j + 1) old (Function.update arr (from_ + place n s a j) v) := by
  refine ⟨fun i hi => ?_, fun p hp => ?_⟩
  · rcases Nat.lt_succ_iff_lt_or_eq.1 hi with hlt | rfl
    · have hne : from_ + place n s a i ≠ from_ + place n s a j := fun heq =>
        absurd (place_injective hn (by omega) hj (Nat.add_left_cancel heq)) (Nat.ne_of_lt hlt)
      rw [Function.update_of_ne hne]
      exact h.1 i hlt
    · rw [Function.update_self, hv]
  · rw [Function.update_of_ne (hp j (Nat.lt_succ_self j))]
    exact h.2 p fun i hi => hp i (Nat.lt_succ_of_lt hi)

theorem next_place (hmid : from_ < mid) (hto : mid < to_) {p : Nat} (hp : p < to_ - from_) :
    (if mid - from_ < to_ - (from_ + p) then from_ + p + (mid - from_)
      else from_ + (mid - from_ - (to_ - (from_ + p)))) = from_ + (p + (mid - from_)) % (to_ - from_) := by
  split
  · rw [Nat.mod_eq_of_lt (by omega), Nat.add_assoc]
  · rw [Nat.mod_eq_sub_mod (by omega), Nat.mod_eq_of_lt (by omega)]
    omega

theorem rotateCycle_spec (hlo : lo ≤ from_) (hmid : from_ < mid) (hto : mid < to_) (hhi : to_ ≤ hi)
    (ha : a < to_ - from_) (hfuel : cycle (to_ - from_) (mid - from_) ≤ j + fuel)
    (hj : j < cycle (to_ - from_) (mid - from_)) (h : Turned from_ (to_ - from_) (mid - from_) a j old arr) :
    ∃ arr', rotateCycle lo hi from_ mid to_ a fuel arr (from_ + place (to_ - from_) (mid - from_) a j)
        (from_ + place (to_ - from_) (mid - from_) a (j + 1)) =
        some (arr', from_ + place (to_ - from_) (mid - from_) a (cycle (to_ - from_) (mid - from_) - 1)) ∧
      Turned from_ (to_ - from_) (mid - from_) a (cycle (to_ - from_) (mid - from_) - 1) old arr' := by
  have hn : 0 < to_ - from_ := by omega
  induction fuel generalizing j arr with
  | zero => omega
  | succ fuel ih =>
    rw [rotateCycle]
    have hlt := place_lt (s := mid - from_) (a := a) (j := j) hn
    have hlt' := place_lt (s := mid - from_) (a := a) (j := j + 1) hn
    by_cases hlast : j + 1 = cycle (to_ - from_) (mid - from_)
    · -- the cycle is closed
      rw [if_pos (by rw [hlast, place_cycle hn ha]), ← hlast, Nat.add_sub_cancel]
      exact ⟨arr, rfl, h⟩
    · have hne : from_ + place (to_ - from_) (mid - from_) a (j + 1) ≠ from_ + a := by
        intro heq
        have hstart : place (to_ - from_) (mid - from_) a (j + 1) = place (to_ - from_) (mid - from_) a 0 := by
          rw [place_zero ha]
          exact Nat.add_left_cancel heq
        exact absurd (place_injective hn (by omega) (by omega) hstart) (Nat.succ_ne_zero j)
      have hread : arr (from_ + place (to_ - from_) (mid - from_) a (j + 1)) =
          old (from_ + place (to_ - from_) (mid - from_) a (j + 1)) := by
        refine h.2 _ fun i hi heq => ?_
        have heq' := place_injective hn (by omega) (by omega) (Nat.add_left_cancel heq)
        omega
      rw [if_neg hne, read_eq arr (by omega) (by omega)]
      simp only [Option.bind_eq_bind, Option.bind_some]
      rw [write_eq _ _ (by omega) (by omega), Option.bind_some, next_place hmid hto hlt', ← place_succ]
      exact ih (by omega) (by omega) (h.write hn (by omega) hread)

/-- The elements from `from_` to `to_`, rotated on the places whose remainder is `k` or more. -/
def RotatedFrom (from_ n s k : Nat) (old arr : Nat → T) : Prop :=
  (∀ p < n, arr (from_ + p) = if k ≤ p % Nat.gcd n s then old (from_ + (p + s) % n) else old (from_ + p)) ∧
    ∀ p, p < from_ ∨ from_ + n ≤ p → arr p = old p

variable {arr' : Nat → T}

theorem RotatedFrom.cycle {k : Nat} (hn : 0 < n) (hk : k < n) (h : RotatedFrom from_ n s (k + 1) old arr)
    (hcycle : Turned from_ n s k (cycle n s) arr arr') (hgcd : k < Nat.gcd n s) :
    RotatedFrom from_ n s k old arr' := by
  refine ⟨fun p hp => ?_, fun p hp => ?_⟩
  · by_cases hrem : p % Nat.gcd n s = k
    · obtain ⟨i, hi, rfl⟩ := exists_place hn hk hp (hrem.trans (Nat.mod_eq_of_lt hgcd).symm)
      have hnext : (place n s k i + s) % n % Nat.gcd n s = k := by
        rw [← place_succ, place_mod_gcd, Nat.mod_eq_of_lt hgcd]
      rw [hcycle.1 i hi, place_succ, h.1 _ (Nat.mod_lt _ hn), hnext, hrem, if_neg (by omega), if_pos (Nat.le_refl k)]
    · have hout : arr' (from_ + p) = arr (from_ + p) := by
        refine hcycle.2 _ fun i _ heq => hrem ?_
        rw [Nat.add_left_cancel heq, place_mod_gcd, Nat.mod_eq_of_lt hgcd]
      rw [hout, h.1 p hp]
      by_cases hle : k ≤ p % Nat.gcd n s
      · rw [if_pos hle, if_pos (by omega)]
      · rw [if_neg hle, if_neg (by omega)]
  · rw [← h.2 p hp]
    refine hcycle.2 p fun i _ heq => ?_
    have hlt := place_lt (s := s) (a := k) (j := i) hn
    omega

theorem rotateCycles_spec (hlo : lo ≤ from_) (hmid : from_ < mid) (hto : mid < to_) (hhi : to_ ≤ hi) {k : Nat}
    (hk : k ≤ Nat.gcd (to_ - from_) (mid - from_)) (h : RotatedFrom from_ (to_ - from_) (mid - from_) k old arr) :
    ∃ arr', rotateCycles lo hi from_ mid to_ k arr = some arr' ∧
      RotatedFrom from_ (to_ - from_) (mid - from_) 0 old arr' := by
  have hn : 0 < to_ - from_ := by omega
  induction k generalizing arr with
  | zero => exact ⟨arr, rfl, h⟩
  | succ k ih =>
    have hgcd := Nat.gcd_le_right (to_ - from_) (show 0 < mid - from_ by omega)
    have hka : k < to_ - from_ := by omega
    have hcycle := cycle_pos (s := mid - from_) hn
    have hstart : Turned from_ (to_ - from_) (mid - from_) k 0 arr arr := ⟨nofun, fun _ _ => rfl⟩
    have hle : cycle (to_ - from_) (mid - from_) ≤ 0 + (to_ - from_ + 1) := by
      have hself := Nat.div_le_self (to_ - from_) (Nat.gcd (to_ - from_) (mid - from_))
      rw [cycle]
      omega
    obtain ⟨arr', hrun, hturned⟩ := rotateCycle_spec hlo hmid hto hhi hka hle hcycle hstart
    have hroom : Nat.gcd (to_ - from_) (mid - from_) ≤ to_ - from_ - (mid - from_) :=
      Nat.le_of_dvd (by omega) (Nat.dvd_sub (Nat.gcd_dvd_left _ _) (Nat.gcd_dvd_right _ _))
    have hsecond : place (to_ - from_) (mid - from_) k (0 + 1) = k + (mid - from_) := by
      rw [place, Nat.zero_add, Nat.one_mul, Nat.mod_eq_of_lt (by omega)]
    rw [place_zero hka, hsecond, ← Nat.add_assoc] at hrun
    have hval : arr (from_ + k) = arr (from_ + place (to_ - from_) (mid - from_) k
        (cycle (to_ - from_) (mid - from_) - 1 + 1)) := by
      rw [Nat.sub_add_cancel hcycle, place_cycle hn hka]
    have hlast := place_lt (s := mid - from_) (a := k) (j := cycle (to_ - from_) (mid - from_) - 1) hn
    have hwhole := hturned.write hn (by omega) hval
    rw [Nat.sub_add_cancel hcycle] at hwhole
    rw [rotateCycles, read_eq arr (by omega) (by omega)]
    simp only [Option.bind_eq_bind, Option.bind_some]
    rw [hrun, Option.bind_some, write_eq _ _ (by omega) (by omega), Option.bind_some]
    exact ih (by omega) (h.cycle hn hka hwhole (by omega))

/-- The `n` elements from `a` on. -/
def seg (arr : Nat → T) (a n : Nat) : List T := (List.range n).map fun k => arr (a + k)

@[simp] theorem length_seg (arr : Nat → T) (a n : Nat) : (seg arr a n).length = n := by simp [seg]

theorem seg_add (arr : Nat → T) (a m n : Nat) : seg arr a (m + n) = seg arr a m ++ seg arr (a + m) n := by
  simp only [seg, List.range_add, List.map_append, List.map_map, Nat.add_assoc]
  rfl

theorem seg_one (arr : Nat → T) (a : Nat) : seg arr a 1 = [arr a] := rfl

theorem seg_succ (arr : Nat → T) (a n : Nat) : seg arr a (n + 1) = seg arr a n ++ [arr (a + n)] := seg_add arr a n 1

theorem seg_congr {b : Nat} (h : ∀ k < n, arr' (b + k) = arr (a + k)) : seg arr' b n = seg arr a n :=
  List.map_congr_left fun k hk => h k (List.mem_range.1 hk)

theorem mem_seg {x : T} : x ∈ seg arr a n ↔ ∃ k < n, arr (a + k) = x := by simp [seg]

def SameOutside (from_ to_ : Nat) (old arr : Nat → T) : Prop := ∀ p, p < from_ ∨ to_ ≤ p → arr p = old p

theorem SameOutside.refl (from_ to_ : Nat) (arr : Nat → T) : SameOutside from_ to_ arr arr := fun _ _ => rfl

theorem SameOutside.trans (h : SameOutside from_ to_ old arr) (h' : SameOutside from_ to_ arr arr') :
    SameOutside from_ to_ old arr' := fun p hp => (h' p hp).trans (h p hp)

theorem SameOutside.mono {from' to' : Nat} (h : SameOutside from_ to_ old arr) (hfrom : from' ≤ from_)
    (hto : to_ ≤ to') :
    SameOutside from' to' old arr := fun p hp => h p (by omega)

theorem SameOutside.seg_eq {b m : Nat} (h : SameOutside from_ to_ old arr) (hapart : b + m ≤ from_ ∨ to_ ≤ b) :
    seg arr b m = seg old b m := seg_congr fun k hk => h (b + k) (by omega)

theorem msRotate_spec (hlo : lo ≤ from_) (hmid : from_ ≤ mid) (hto : mid ≤ to_) (hhi : to_ ≤ hi) (arr : Nat → T) :
    ∃ arr', msRotate lo hi arr from_ mid to_ = some arr' ∧ SameOutside from_ to_ arr arr' ∧
      seg arr' from_ (to_ - from_) = seg arr mid (to_ - mid) ++ seg arr from_ (mid - from_) := by
  by_cases hempty : from_ = mid ∨ mid = to_
  · refine ⟨arr, if_pos hempty, SameOutside.refl _ _ _, ?_⟩
    rcases hempty with rfl | rfl
    · rw [Nat.sub_self]
      exact (List.append_nil _).symm
    · rw [Nat.sub_self]
      exact (List.nil_append _).symm
  · have hn : 0 < to_ - from_ := by omega
    have hall : RotatedFrom from_ (to_ - from_) (mid - from_) (Nat.gcd (to_ - from_) (mid - from_)) arr arr := by
      refine ⟨fun p hp => (if_neg ?_).symm, fun _ _ => rfl⟩
      exact Nat.not_le_of_lt (Nat.mod_lt p (Nat.gcd_pos_of_pos_left _ hn))
    obtain ⟨arr', hrun, hin, hout⟩ := rotateCycles_spec hlo (by omega) (by omega) hhi (Nat.le_refl _) hall
    refine ⟨arr', ?_, fun p hp => hout p (by omega), ?_⟩
    · rw [msRotate, if_neg hempty, msGcd_eq, Nat.gcd_comm, hrun]
    · have hsplit : to_ - from_ = (to_ - mid) + (mid - from_) := by omega
      have hleft : seg arr' from_ (to_ - mid) = seg arr mid (to_ - mid) := seg_congr fun k hk => by
        rw [hin k (by omega), if_pos (Nat.zero_le _), Nat.mod_eq_of_lt (by omega)]
        congr 1
        omega
      have hright : seg arr' (from_ + (to_ - mid)) (mid - from_) = seg arr from_ (mid - from_) :=
        seg_congr fun k hk => by
        have hwrap : (to_ - mid + k + (mid - from_)) % (to_ - from_) = k := by
          rw [Nat.mod_eq_sub_mod (by omega), Nat.mod_eq_of_lt (by omega)]
          omega
        rw [Nat.add_assoc, hin _ (by omega), if_pos (Nat.zero_le _), hwrap]
      rw [hsplit, seg_add, hleft, hright]

theorem cut_spec {right : Nat → Option Bool} {p : Nat → Bool} {from_ len : Nat} (hfuel : len < fuel)
    (hright : ∀ i, from_ ≤ i → i < from_ + len → right i = some (p i)) :
    ∃ r, cut right fuel from_ len = some r ∧ from_ ≤ r ∧ r ≤ from_ + len ∧
      ((∀ i j, from_ ≤ i → i ≤ j → j < from_ + len → p j → p i) →
        ∀ i, from_ ≤ i → i < from_ + len → (p i ↔ i < r)) := by
  induction fuel generalizing from_ len with
  | zero => omega
  | succ fuel ih =>
    rw [cut]
    by_cases hlen : 0 < len
    · have hhalf : len / 2 < len := Nat.div_lt_self hlen (by decide)
      rw [if_pos hlen]
      dsimp only
      rw [hright (from_ + len / 2) (by omega) (by omega)]
      simp only [Option.bind_eq_bind, Option.bind_some]
      by_cases hp : p (from_ + len / 2)
      · rw [if_pos hp]
        obtain ⟨r, hr, hlow, hhigh, hcut⟩ := ih (show len - len / 2 - 1 < fuel by omega)
          (fun i (hi : from_ + len / 2 + 1 ≤ i) hi' => hright i (by omega) (by omega))
        refine ⟨r, hr, by omega, by omega, fun hmono i hi hi' => ?_⟩
        rcases Nat.lt_or_ge (from_ + len / 2) i with hlt | hge
        · exact hcut (fun i j h₁ h₂ h₃ => hmono i j (by omega) h₂ (by omega)) i hlt (by omega)
        · exact iff_of_true (hmono i _ hi hge (by omega) hp) (by omega)
      · rw [if_neg hp]
        obtain ⟨r, hr, hlow, hhigh, hcut⟩ := ih (show len / 2 < fuel by omega)
          (fun i (hi : from_ ≤ i) hi' => hright i hi (by omega))
        refine ⟨r, hr, hlow, by omega, fun hmono i hi hi' => ?_⟩
        rcases Nat.lt_or_ge i (from_ + len / 2) with hlt | hge
        · exact hcut (fun i j h₁ h₂ h₃ => hmono i j h₁ h₂ (by omega)) i hi hlt
        · exact iff_of_false (fun hpi => hp (hmono _ i (by omega) hge hi' hpi)) (by omega)
    · rw [if_neg hlen]
      exact ⟨from_, rfl, Nat.le_refl _, by omega, fun _ i hi hi' => by omega⟩

end

open StableSort

variable {T : Type} {cmp : T → T → Int} {lo hi from_ mid pivot to_ len1 len2 a n : Nat} {arr old : Nat → T}

theorem ordered_seg :
    StableSort.Ordered cmp (seg arr a n) ↔ ∀ i j, a ≤ i → i < j → j < a + n → cmp (arr i) (arr j) ≤ 0 := by
  rw [StableSort.Ordered, List.pairwise_iff_getElem]
  constructor
  · intro h i j hi hij hj
    have hpair := h (i - a) (j - a) (by simp; omega) (by simp; omega) (by omega)
    simp only [seg, List.getElem_map, List.getElem_range] at hpair
    rwa [Nat.add_sub_of_le hi, Nat.add_sub_of_le (by omega)] at hpair
  · intro h i j hi hj hij
    simp only [seg, List.length_map, List.length_range] at hi hj
    simp only [seg, List.getElem_map, List.getElem_range]
    exact h (a + i) (a + j) (by omega) (by omega) (by omega)

theorem le_of_ordered_seg (ho : TotalPreorder cmp) (h : StableSort.Ordered cmp (seg arr a n)) {j : Nat}
    (hi : a ≤ i) (hij : i ≤ j) (hj : j < a + n) : cmp (arr i) (arr j) ≤ 0 := by
  rcases Nat.eq_or_lt_of_le hij with rfl | hlt
  · exact Int.le_of_eq (ho.refl _)
  · exact (ordered_seg).1 h i j hi hlt hj

theorem seg_two {b : Nat} (harr : b = a + 1) : seg arr a (1 + 1) = [arr a, arr b] := by
  rw [seg_add, seg_one, seg_one, harr]
  rfl

theorem msCompare_eq {j : Nat} (hi₁ : lo ≤ i) (hi₂ : i < hi) (hj₁ : lo ≤ j) (hj₂ : j < hi) :
    msCompare cmp lo hi arr i j = some (cmp (arr i) (arr j)) := by
  rw [msCompare, read_eq arr hi₁ hi₂, read_eq arr hj₁ hj₂]
  rfl

theorem msSwap_eq {j : Nat} (hi₁ : lo ≤ i) (hi₂ : i < hi) (hj₁ : lo ≤ j) (hj₂ : j < hi) :
    msSwap lo hi arr i j = some (Function.update (Function.update arr i (arr j)) j (arr i)) := by
  rw [msSwap, read_eq arr hi₁ hi₂, read_eq arr hj₁ hj₂]
  simp only [Option.bind_eq_bind, Option.bind_some]
  rw [write_eq _ _ hi₁ hi₂, Option.bind_some, write_eq _ _ hj₁ hj₂]

variable {val : Nat}
variable (cmp arr) in
theorem msLower_spec (hlo : lo ≤ from_) (hle : from_ ≤ to_) (hhi : to_ ≤ hi) (hval₁ : lo ≤ val) (hval₂ : val < hi) :
    ∃ r, msLower cmp lo hi arr from_ to_ val = some r ∧ from_ ≤ r ∧ r ≤ to_ ∧
      (TotalPreorder cmp → StableSort.Ordered cmp (seg arr from_ (to_ - from_)) →
        ∀ i, from_ ≤ i → i < to_ → (cmp (arr i) (arr val) < 0 ↔ i < r)) := by
  have hright : ∀ i, from_ ≤ i → i < from_ + (to_ - from_) →
      (msCompare cmp lo hi arr i val).map (fun c => decide (c < 0)) = some (decide (cmp (arr i) (arr val) < 0)) := by
    intro i hi₁ hi₂
    rw [msCompare_eq (by omega) (by omega) hval₁ hval₂]
    rfl
  obtain ⟨r, hr, hlow, hhigh, hcut⟩ := cut_spec (Nat.lt_succ_self _) hright
  refine ⟨r, hr, hlow, by omega, fun ho hord i hi₁ hi₂ => ?_⟩
  rw [← hcut (fun i j h₁ h₂ h₃ hj => ?_) i hi₁ (by omega), decide_eq_true_iff]
  rw [decide_eq_true_iff] at hj ⊢
  exact ho.lt_of_le_of_lt (le_of_ordered_seg ho hord h₁ h₂ h₃) hj

variable (cmp arr) in
theorem msUpper_spec (hlo : lo ≤ from_) (hle : from_ ≤ to_) (hhi : to_ ≤ hi) (hval₁ : lo ≤ val) (hval₂ : val < hi) :
    ∃ r, msUpper cmp lo hi arr from_ to_ val = some r ∧ from_ ≤ r ∧ r ≤ to_ ∧
      (TotalPreorder cmp → StableSort.Ordered cmp (seg arr from_ (to_ - from_)) →
        ∀ i, from_ ≤ i → i < to_ → (cmp (arr i) (arr val) ≤ 0 ↔ i < r)) := by
  have hright : ∀ i, from_ ≤ i → i < from_ + (to_ - from_) → (msCompare cmp lo hi arr val i).map
      (fun c => !decide (c < 0)) = some (!decide (cmp (arr val) (arr i) < 0)) := by
    intro i hi₁ hi₂
    rw [msCompare_eq hval₁ hval₂ (by omega) (by omega)]
    rfl
  obtain ⟨r, hr, hlow, hhigh, hcut⟩ := cut_spec (Nat.lt_succ_self _) hright
  refine ⟨r, hr, hlow, by omega, fun ho hord i hi₁ hi₂ => ?_⟩
  rw [← hcut (fun i j h₁ h₂ h₃ hj => ?_) i hi₁ (by omega), Bool.not_eq_true', decide_eq_false_iff_not, ho.le_iff]
  rw [Bool.not_eq_true', decide_eq_false_iff_not, ← ho.le_iff] at hj ⊢
  exact ho.trans _ _ _ (le_of_ordered_seg ho hord h₁ h₂ h₃) hj

variable (cmp arr) in
theorem mergeCuts_spec (hlo : lo ≤ from_) (hpivot : from_ + len1 = pivot) (hto : pivot + len2 = to_) (hhi : to_ ≤ hi)
    (hlen1 : 0 < len1) (hlen2 : 0 < len2) (htwo : len1 + len2 ≠ 2) :
    ∃ c₁ c₂, mergeCuts cmp lo hi arr from_ pivot to_ len1 len2 = some (c₁, c₂) ∧
      (from_ ≤ c₁ ∧ c₁ ≤ pivot) ∧ (pivot ≤ c₂ ∧ c₂ ≤ to_) ∧
      (0 < (c₁ - from_) + (c₂ - pivot) ∧ (c₁ - from_) + (c₂ - pivot) < len1 + len2) ∧
      (TotalPreorder cmp → StableSort.Ordered cmp (seg arr from_ len1) → StableSort.Ordered cmp (seg arr pivot len2) →
        (∀ i j, from_ ≤ i → i < c₁ → c₂ ≤ j → j < to_ → cmp (arr i) (arr j) ≤ 0) ∧
        ∀ j i, pivot ≤ j → j < c₂ → c₁ ≤ i → i < pivot → cmp (arr j) (arr i) < 0) := by
  have hleft : pivot - from_ = len1 := by omega
  have hright : to_ - pivot = len2 := by omega
  rw [mergeCuts]
  by_cases hlonger : len2 < len1
  · have hhalf : 0 < len1 / 2 ∧ len1 / 2 < len1 := by omega
    obtain ⟨c₂, hc₂, hlow, hhigh, hcut⟩ := msLower_spec cmp arr (show lo ≤ pivot by omega)
      (show pivot ≤ to_ by omega) hhi (show lo ≤ from_ + len1 / 2 by omega) (by omega)
    rw [if_pos hlonger]
    dsimp only
    rw [hc₂]
    refine ⟨_, _, rfl, by omega, by omega, by omega, fun ho hord1 hord2 => ?_⟩
    rw [← hright] at hord2
    refine ⟨fun i j hi₁ hi₂ hj₁ hj₂ => ?_, fun j i hj₁ hj₂ hi₁ hi₂ => ?_⟩
    · have hj := mt (hcut ho hord2 j (by omega) hj₂).1 (by omega)
      exact ho.trans _ _ _ (le_of_ordered_seg ho hord1 hi₁ (Nat.le_of_lt hi₂) (by omega)) (ho.le_iff.2 hj)
    · have hj := (hcut ho hord2 j hj₁ (by omega)).2 hj₂
      exact ho.lt_of_lt_of_le hj (le_of_ordered_seg ho hord1 (by omega) hi₁ (by omega))
  · obtain ⟨c₁, hc₁, hlow, hhigh, hcut⟩ := msUpper_spec cmp arr hlo (show from_ ≤ pivot by omega)
      (show pivot ≤ hi by omega) (show lo ≤ pivot + len2 / 2 by omega) (by omega)
    rw [if_neg hlonger]
    dsimp only
    rw [hc₁]
    refine ⟨_, _, rfl, by omega, by omega, by omega, fun ho hord1 hord2 => ?_⟩
    rw [← hleft] at hord1
    refine ⟨fun i j hi₁ hi₂ hj₁ hj₂ => ?_, fun j i hj₁ hj₂ hi₁ hi₂ => ?_⟩
    · have hi := (hcut ho hord1 i hi₁ (by omega)).2 hi₂
      exact ho.trans _ _ _ hi (le_of_ordered_seg ho hord2 (by omega) hj₁ (by omega))
    · have hi : cmp (arr (pivot + len2 / 2)) (arr i) < 0 := by
        by_contra hnot
        exact absurd ((hcut ho hord1 i (by omega) hi₂).1 (ho.le_iff.2 hnot)) (by omega)
      exact ho.lt_of_le_of_lt (le_of_ordered_seg ho hord2 hj₁ (Nat.le_of_lt hj₂) (by omega)) hi

theorem parts_of_exchanged {arr₁ : Nat → T} {a₁ a₂ b₁ : Nat} (hpivot : from_ + (a₁ + a₂) = pivot)
    (h : seg arr₁ (from_ + a₁) (pivot + b₁ - (from_ + a₁)) =
      seg arr pivot (pivot + b₁ - pivot) ++ seg arr (from_ + a₁) (pivot - (from_ + a₁))) :
    seg arr₁ (from_ + a₁) b₁ = seg arr pivot b₁ ∧ seg arr₁ (from_ + a₁ + b₁) a₂ = seg arr (from_ + a₁) a₂ := by
  rw [show pivot + b₁ - (from_ + a₁) = b₁ + a₂ by omega, show pivot - (from_ + a₁) = a₂ by omega,
    Nat.add_sub_cancel_left, seg_add] at h
  exact List.append_inj h (by rw [length_seg, length_seg])

variable (arr) in
theorem msDoMerge_spec (hfuel : len1 + len2 < fuel) (hlo : lo ≤ from_) (hpivot : from_ + len1 = pivot)
    (hto : pivot + len2 = to_) (hhi : to_ ≤ hi) :
    ∃ arr', msDoMerge cmp lo hi fuel arr from_ pivot to_ len1 len2 = some arr' ∧ SameOutside from_ to_ arr arr' ∧
      Merges cmp (seg arr from_ len1) (seg arr pivot len2) (seg arr' from_ (len1 + len2)) := by
  induction fuel generalizing arr from_ pivot to_ len1 len2 with
  | zero => omega
  | succ fuel ih =>
    rw [msDoMerge]
    by_cases hnone : len1 = 0 ∨ len2 = 0
    · rw [if_pos hnone]
      refine ⟨arr, rfl, SameOutside.refl _ _ _, ?_⟩
      rcases hnone with rfl | rfl
      · rw [Nat.zero_add, ← hpivot, Nat.add_zero]
        exact merges_nil_left _
      · exact merges_nil_right _
    rw [if_neg hnone]
    by_cases htwo : len1 + len2 = 2
    · obtain ⟨rfl, rfl⟩ : len1 = 1 ∧ len2 = 1 := by omega
      rw [if_pos htwo, msCompare_eq (by omega) (by omega) (by omega) (by omega)]
      simp only [Option.bind_eq_bind, Option.bind_some]
      have hmerge := merges_single cmp (arr from_) (arr pivot)
      by_cases hlt : cmp (arr pivot) (arr from_) < 0
      · rw [if_pos hlt] at hmerge ⊢
        rw [msSwap_eq (by omega) (by omega) (by omega) (by omega)]
        refine ⟨_, rfl, fun p hp => ?_, ?_⟩
        · rw [Function.update_of_ne (by omega), Function.update_of_ne (by omega)]
        · rw [seg_one, seg_one, seg_two hpivot.symm, Function.update_self, Function.update_of_ne (by omega),
            Function.update_self]
          exact hmerge
      · rw [if_neg hlt] at hmerge ⊢
        refine ⟨arr, rfl, SameOutside.refl _ _ _, ?_⟩
        rw [seg_one, seg_one, seg_two hpivot.symm]
        exact hmerge
    rw [if_neg htwo]
    obtain ⟨c₁, c₂, hcuts, ⟨hc₁, hc₁'⟩, ⟨hc₂, hc₂'⟩, ⟨hsome, hless⟩, hcross⟩ := mergeCuts_spec cmp arr hlo hpivot hto
      hhi (by omega) (by omega) htwo
    obtain ⟨arr₁, hrotate, hsame₁, hexchanged⟩ := msRotate_spec (show lo ≤ c₁ by omega) hc₁' hc₂
      (show c₂ ≤ hi by omega) arr
    rw [hcuts]
    simp only [Option.bind_eq_bind, Option.bind_some]
    rw [hrotate, Option.bind_some]
    obtain ⟨a₁, rfl⟩ : ∃ a₁, c₁ = from_ + a₁ := ⟨c₁ - from_, by omega⟩
    obtain ⟨b₁, rfl⟩ : ∃ b₁, c₂ = pivot + b₁ := ⟨c₂ - pivot, by omega⟩
    obtain ⟨a₂, rfl⟩ : ∃ a₂, len1 = a₁ + a₂ := ⟨len1 - a₁, by omega⟩
    obtain ⟨b₂, rfl⟩ : ∃ b₂, len2 = b₁ + b₂ := ⟨len2 - b₁, by omega⟩
    have hcut := parts_of_exchanged hpivot hexchanged
    simp only [Nat.add_sub_cancel_left] at *
    -- both sides of the rotation
    obtain ⟨arr₂, hrun₂, hsame₂, hmerge₂⟩ := ih arr₁ (show a₁ + b₁ < fuel by omega) hlo rfl rfl
      (show from_ + a₁ + b₁ ≤ hi by omega)
    obtain ⟨arr₃, hrun₃, hsame₃, hmerge₃⟩ := ih arr₂ (show a₂ + b₂ < fuel by omega)
      (show lo ≤ from_ + a₁ + b₁ by omega) (show from_ + a₁ + b₁ + a₂ = pivot + b₁ by omega)
      (show pivot + b₁ + b₂ = to_ by omega) hhi
    rw [hrun₂, Option.bind_some, hrun₃]
    refine ⟨arr₃, rfl, ((hsame₁.mono (by omega) (by omega)).trans (hsame₂.mono (by omega) (by omega))).trans
      (hsame₃.mono (by omega) (by omega)), ?_⟩
    have hpart₁ : seg arr₁ from_ a₁ = seg arr from_ a₁ := hsame₁.seg_eq (Or.inl (Nat.le_refl _))
    have hpart₂ : seg arr₂ (from_ + a₁ + b₁) a₂ = seg arr (from_ + a₁) a₂ :=
      (hsame₂.seg_eq (Or.inr (Nat.le_refl _))).trans hcut.2
    have hpart₃ : seg arr₂ (pivot + b₁) b₂ = seg arr (pivot + b₁) b₂ :=
      (hsame₂.seg_eq (Or.inr (by omega))).trans (hsame₁.seg_eq (Or.inr (Nat.le_refl _)))
    have hpart₄ : seg arr₃ from_ (a₁ + b₁) = seg arr₂ from_ (a₁ + b₁) := hsame₃.seg_eq (Or.inl (by omega))
    rw [hpart₁, hcut.1] at hmerge₂
    rw [hpart₂, hpart₃] at hmerge₃
    rw [show a₁ + a₂ + (b₁ + b₂) = (a₁ + b₁) + (a₂ + b₂) by omega, seg_add arr from_, seg_add arr pivot,
      seg_add arr₃, hpart₄, ← Nat.add_assoc from_]
    refine hmerge₂.cut hmerge₃ fun ho hord₁ hord₂ => ?_
    rw [← seg_add] at hord₁ hord₂
    obtain ⟨hle, hlt⟩ := hcross ho hord₁ hord₂
    refine ⟨fun x hx y hy => ?_, fun x hx y hy => ?_⟩
    · obtain ⟨i, hi, rfl⟩ := (mem_seg).1 hx
      obtain ⟨j, hj, rfl⟩ := (mem_seg).1 hy
      exact hle _ _ (by omega) (by omega) (by omega) (by omega)
    · obtain ⟨i, hi, rfl⟩ := (mem_seg).1 hx
      obtain ⟨j, hj, rfl⟩ := (mem_seg).1 hy
      exact hlt _ _ (by omega) (by omega) (by omega) (by omega)

theorem seg_stays {j : Nat} (arr : Nat → T) (hfrom : from_ ≤ j + 1) : seg arr from_ (j + 1 + 1 - from_) =
    seg arr from_ (j + 1 - from_) ++ arr (j + 1) :: seg arr (j + 1) (j + 1 - (j + 1)) := by
  rw [show j + 1 + 1 - from_ = j + 1 - from_ + 1 by omega, seg_succ, Nat.add_sub_of_le hfrom, Nat.sub_self]
  rfl

theorem sorts_short (hn : n ≤ 1) : Sorts cmp (seg arr a n) (seg arr a n) := by
  refine ⟨.refl _, fun _ => (ordered_seg).2 fun i j hi hij hj => by omega, fun _ => .refl _⟩

variable (cmp arr) in
theorem sink_spec {j : Nat} (hlo : lo ≤ from_) (hfrom : from_ ≤ j) (hhi : j < hi) :
    ∃ arr' q, sink cmp lo hi from_ j arr = some arr' ∧ (from_ ≤ q ∧ q ≤ j) ∧ SameOutside from_ (j + 1) arr arr' ∧
      seg arr' from_ (j + 1 - from_) = seg arr from_ (q - from_) ++ arr j :: seg arr q (j - q) ∧
      (∀ i, q ≤ i → i < j → cmp (arr j) (arr i) < 0) ∧ (from_ < q → ¬cmp (arr j) (arr (q - 1)) < 0) := by
  induction j generalizing arr with
  | zero =>
    obtain rfl : from_ = 0 := by omega
    exact ⟨arr, 0, rfl, by omega, SameOutside.refl _ _ _, rfl, fun i hi hi' => by omega, fun h => by omega⟩
  | succ j ih =>
    rw [sink]
    by_cases hj : from_ < j + 1
    · rw [if_pos hj, msCompare_eq (by omega) (by omega) (by omega) (by omega)]
      simp only [Option.bind_eq_bind, Option.bind_some]
      by_cases hlt : cmp (arr (j + 1)) (arr j) < 0
      · rw [if_pos hlt, msSwap_eq (by omega) (by omega) (by omega) (by omega), Option.bind_some]
        have hmoved : Function.update (Function.update arr j (arr (j + 1))) (j + 1) (arr j) j = arr (j + 1) := by
          rw [Function.update_of_ne (by omega), Function.update_self]
        have hbelow : ∀ p, p < j →
            Function.update (Function.update arr j (arr (j + 1))) (j + 1) (arr j) p = arr p := by
          intro p hp
          rw [Function.update_of_ne (by omega), Function.update_of_ne (by omega)]
        obtain ⟨arr', q, hrun, hq, hsame, hseg, hafter, hbefore⟩ := ih
          (Function.update (Function.update arr j (arr (j + 1))) (j + 1) (arr j)) (show from_ ≤ j by omega) (by omega)
        have hlast : arr' (j + 1) = arr j := (hsame (j + 1) (Or.inr (Nat.le_refl _))).trans (Function.update_self ..)
        rw [hmoved] at hseg hafter hbefore
        refine ⟨arr', q, hrun, by omega, fun p hp => ?_, ?_, fun i hi hi' => ?_, fun hfirst => ?_⟩
        · rw [hsame p (by omega), Function.update_of_ne (by omega), Function.update_of_ne (by omega)]
        · rw [show j + 1 + 1 - from_ = j + 1 - from_ + 1 by omega, seg_succ, hseg, Nat.add_sub_of_le (by omega),
            hlast, show j + 1 - q = j - q + 1 by omega, seg_succ arr q, Nat.add_sub_of_le hq.2,
            seg_congr fun k hk => hbelow (from_ + k) (by omega), seg_congr fun k hk => hbelow (q + k) (by omega),
            List.append_assoc]
          rfl
        · rcases Nat.lt_succ_iff_lt_or_eq.1 hi' with hless | rfl
          · rw [← hbelow i hless]
            exact hafter i hi hless
          · exact hlt
        · rw [← hbelow (q - 1) (by omega)]
          exact hbefore hfirst
      · rw [if_neg hlt]
        exact ⟨arr, j + 1, rfl, by omega, SameOutside.refl _ _ _, seg_stays arr hfrom, fun i hi hi' => by omega,
          fun _ => hlt⟩
    · rw [if_neg hj]
      exact ⟨arr, j + 1, rfl, by omega, SameOutside.refl _ _ _, seg_stays arr hfrom, fun i hi hi' => by omega,
        fun h => by omega⟩

theorem insertSort_spec {l : List T} (hlo : lo ≤ from_) (hfrom : from_ ≤ i) (hhi : i + n ≤ hi)
    (h : Sorts cmp l (seg arr from_ (i - from_))) :
    ∃ arr', insertSort cmp lo hi from_ n i arr = some arr' ∧ SameOutside from_ (i + n) arr arr' ∧
      Sorts cmp (l ++ seg arr i n) (seg arr' from_ (i + n - from_)) := by
  induction n generalizing l i arr with
  | zero =>
    refine ⟨arr, rfl, SameOutside.refl _ _ _, ?_⟩
    rw [Nat.add_zero, show seg arr i 0 = [] from rfl, List.append_nil]
    exact h
  | succ n ih =>
    obtain ⟨arr₁, q, hrun, hq, hsame, hseg, hafter, hbefore⟩ := sink_spec cmp arr hlo hfrom (show i < hi by omega)
    have hsplit : seg arr from_ (i - from_) = seg arr from_ (q - from_) ++ seg arr q (i - q) := by
      rw [show i - from_ = q - from_ + (i - q) by omega, seg_add, Nat.add_sub_of_le hq.1]
    rw [hsplit] at h
    have hinserted : Sorts cmp (l ++ [arr i]) (seg arr₁ from_ (i + 1 - from_)) := by
      rw [hseg]
      refine h.insert (fun y hy => ?_) fun ho y hy => ?_
      · obtain ⟨k, hk, rfl⟩ := (mem_seg).1 hy
        exact hafter _ (by omega) (by omega)
      · -- the last element before the place is not greater
        obtain ⟨k, hk, rfl⟩ := (mem_seg).1 hy
        have hord := (List.pairwise_append.1 (h.ordered ho)).1
        have hlast := ho.le_iff.2 (hbefore (by omega))
        exact ho.trans _ _ _ (le_of_ordered_seg ho hord (by omega) (show from_ + k ≤ q - 1 by omega) (by omega)) hlast
    obtain ⟨arr₂, hrun₂, hsame₂, hsorts⟩ := ih (show from_ ≤ i + 1 by omega) (show i + 1 + n ≤ hi by omega) hinserted
    have hrest : seg arr₁ (i + 1) n = seg arr (i + 1) n := hsame.seg_eq (Or.inr (Nat.le_refl _))
    rw [insertSort, hrun]
    refine ⟨arr₂, hrun₂, (hsame.mono (Nat.le_refl _) (by omega)).trans (hsame₂.mono (Nat.le_refl _) (by omega)), ?_⟩
    rw [hrest, List.append_assoc, ← seg_one, ← seg_add, Nat.add_comm 1 n] at hsorts
    rwa [show i + (n + 1) = i + 1 + n by omega]

variable (arr) in
theorem mergeSortRec_spec (hfuel : to_ - from_ < fuel) (hlo : lo ≤ from_) (hhi : to_ ≤ hi) :
    ∃ arr', mergeSortRec cmp lo hi fuel arr from_ to_ = some arr' ∧ SameOutside from_ to_ arr arr' ∧
      Sorts cmp (seg arr from_ (to_ - from_)) (seg arr' from_ (to_ - from_)) := by
  induction fuel generalizing arr from_ to_ with
  | zero => omega
  | succ fuel ih =>
    rw [mergeSortRec]
    by_cases hshort : to_ < from_ + 12
    · rw [if_pos hshort]
      by_cases hnone : to_ ≤ from_
      · rw [if_pos hnone]
        refine ⟨arr, rfl, SameOutside.refl _ _ _, ?_⟩
        rw [Nat.sub_eq_zero_of_le hnone]
        exact sorts_short (Nat.zero_le _)
      · rw [if_neg hnone]
        have hone : Sorts cmp (seg arr from_ 1) (seg arr from_ (from_ + 1 - from_)) := by
          rw [Nat.add_sub_cancel_left]
          exact sorts_short (Nat.le_refl _)
        obtain ⟨arr', hrun, hsame, hsorts⟩ := insertSort_spec hlo (show from_ ≤ from_ + 1 by omega)
          (show from_ + 1 + (to_ - (from_ + 1)) ≤ hi by omega) hone
        rw [Nat.add_sub_of_le (by omega)] at hsame hsorts
        rw [← seg_add, show 1 + (to_ - (from_ + 1)) = to_ - from_ by omega] at hsorts
        exact ⟨arr', hrun, hsame, hsorts⟩
    · rw [if_neg hshort]
      obtain ⟨m, hm⟩ : ∃ m, (from_ + to_) / 2 = m := ⟨_, rfl⟩
      obtain ⟨arr₁, hrun₁, hsame₁, hsorts₁⟩ := ih arr (show m - from_ < fuel by omega) hlo (show m ≤ hi by omega)
      obtain ⟨arr₂, hrun₂, hsame₂, hsorts₂⟩ := ih arr₁ (show to_ - m < fuel by omega) (show lo ≤ m by omega) hhi
      obtain ⟨arr₃, hrun₃, hsame₃, hmerges⟩ := msDoMerge_spec arr₂
        (show m - from_ + (to_ - m) < to_ - from_ + 1 by omega) hlo (show from_ + (m - from_) = m by omega)
        (show m + (to_ - m) = to_ by omega) hhi
      have hleft : seg arr₂ from_ (m - from_) = seg arr₁ from_ (m - from_) := hsame₂.seg_eq (Or.inl (by omega))
      have hright : seg arr₁ m (to_ - m) = seg arr m (to_ - m) := hsame₁.seg_eq (Or.inr (Nat.le_refl _))
      rw [hleft] at hmerges
      rw [hright] at hsorts₂
      have hwhole := hsorts₁.merge hsorts₂ hmerges
      simp only [Option.bind_eq_bind, hm]
      rw [hrun₁, Option.bind_some, hrun₂, Option.bind_some, hrun₃]
      refine ⟨arr₃, rfl,
        ((hsame₁.mono (Nat.le_refl _) (by omega)).trans (hsame₂.mono (by omega) (Nat.le_refl _))).trans
        hsame₃, ?_⟩
      have hsplit : seg arr from_ (to_ - from_) = seg arr from_ (m - from_) ++ seg arr m (to_ - m) := by
        rw [show to_ - from_ = m - from_ + (to_ - m) by omega, seg_add, Nat.add_sub_of_le (by omega)]
      rw [hsplit, show to_ - from_ = m - from_ + (to_ - m) by omega]
      exact hwhole

/-- Every part is sorted with accesses to this part only. -/
theorem mergeSort_sorts (cmp : T → T → Int) (arr : Nat → T) (from_ to_ : Nat) :
    ∃ arr', mergeSort cmp arr from_ to_ = some arr' ∧ SameOutside from_ to_ arr arr' ∧
      Sorts cmp (seg arr from_ (to_ - from_)) (seg arr' from_ (to_ - from_)) :=
  mergeSortRec_spec arr (Nat.lt_succ_self _) (Nat.le_refl _) (Nat.le_refl _)

/-- Pairs are sorted by their first numbers, and the pairs with the same one stay in their order. -/
example : (mergeSort (fun x y : Int × Int => x.1 - y.1)
    (fun i => [(2, 0), (1, 1), (2, 2), (0, 3), (1, 4)].getD i (0, 0)) 0 5).map (seg · 0 5) =
      some [(0, 3), (1, 1), (1, 4), (2, 0), (2, 2)] := by decide +kernel

end HashLink.MergeSort
