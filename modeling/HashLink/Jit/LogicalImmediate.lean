import HashLink.Lib.RotatedRun
import Mathlib.Data.BitVec

/-!
Logical immediates of AArch64. A value can be one when it is a rotated run of ones, repeated in elements
of a power of two of bits. The test turns the value until a run of ones begins at bit 0, and compares the
value with itself turned by the two runs there.

What the test of logical immediates accepts: the rotated runs of ones, and for each of them the fields that
the processor decodes back to it.
-/

namespace HashLink.Arm64

open RotatedRun Function

/-- `__builtin_ctzll`. The source does not use it on zero. -/
def ctz (x : BitVec 64) : Nat := ((List.range 64).find? fun i => x.getLsbD i).getD 64

/-- `__builtin_clzll`. -/
def clz (x : BitVec 64) : Nat := ((List.range 64).find? fun i => x.getLsbD (63 - i)).getD 64

def rotateRight64 (val : BitVec 64) (rotation : Nat) : BitVec 64 :=
  (val >>> (rotation % 64)) ||| (val <<< ((64 - rotation % 64) % 64))

structure LogicalFields where
  n : Nat
  immr : Nat
  imms : Nat
  deriving DecidableEq, Repr

/-- `rotation`. -/
def immRotation (val : BitVec 64) : Nat :=
  let tmp := val &&& (val + 1)
  if tmp = 0 then 0 else ctz tmp

def immFields (rotation size ones : Nat) : LogicalFields where
  n := size >>> 6
  immr := (-(BitVec.ofNat 32 rotation) &&& (BitVec.ofNat 32 size - 1)).toNat
  imms := ((-(BitVec.ofNat 32 size <<< 1) ||| (BitVec.ofNat 32 ones - 1)) &&& 0x3f).toNat

def isLogicalImmediate64 (val : BitVec 64) : Option LogicalFields :=
  if val = 0 ∨ ~~~val = 0 then none
  else
    let normalized := rotateRight64 val (immRotation val)
    let zeroes := clz normalized
    let ones := ctz (~~~normalized)
    let size := zeroes + ones
    if rotateRight64 val size ≠ val then none else some (immFields (immRotation val) size ones)

def isLogicalImmediate32 (val : BitVec 32) : Option LogicalFields :=
  if val = 0 ∨ val = 0xFFFFFFFF then none
  else
    match isLogicalImmediate64 (val.setWidth 64 <<< 32 ||| val.setWidth 64) with
    | none => none
    | some fields => if fields.n ≠ 0 then none else some fields

/-- `DecodeBitMasks`: the immediate that the processor makes of the fields, none for reserved ones. -/
def decodeBitMasks (fields : LogicalFields) : Option (BitVec 64) :=
  let top := fields.n * 64 + (63 - fields.imms)
  if top < 2 then none
  else
    let esize := 2 ^ Nat.log2 top
    if fields.imms % esize = esize - 1 then none
    else
      some (BitVec.ofNat 64 (Nat.ofBits fun i : Fin 64 =>
        (i.val + fields.immr % esize) % esize ≤ fields.imms % esize))

def bit (x : BitVec 64) (i : ℤ) : Bool := x.getLsbD (i % 64).toNat

theorem bit_natCast (x : BitVec 64) {i : Nat} (hi : i < 64) : bit x i = x.getLsbD i := by
  unfold bit
  rw [Int.emod_eq_of_lt (by omega) (by omega), Int.toNat_natCast]

theorem bit_emod (x : BitVec 64) (i : ℤ) : bit x (i % 64) = bit x i := by
  unfold bit
  rw [Int.emod_emod]

theorem periodic_bit (x : BitVec 64) : Periodic (bit x) (64 : Nat) := by
  intro i
  rw [← bit_emod x (i + (64 : Nat)), ← bit_emod x i]
  exact congrArg (bit x) (Int.add_emod_right i 64)

variable {x : BitVec 64} {fields : LogicalFields}

theorem eq_of_bit {y : BitVec 64} (h : bit x = bit y) : x = y := by
  apply BitVec.eq_of_getLsbD_eq
  intro i hi
  rw [← bit_natCast x hi, ← bit_natCast y hi, h]

theorem bit_not (x : BitVec 64) (i : ℤ) : bit (~~~x) i = !bit x i := by
  have hlt : (i % 64).toNat < 64 := by omega
  unfold bit
  rw [BitVec.getLsbD_not, decide_eq_true hlt, Bool.true_and]

theorem bit_rotateRight64 (x : BitVec 64) (r : Nat) (i : ℤ) : bit (rotateRight64 x r) i = bit x (i + r) := by
  rw [← bit_emod (rotateRight64 x r) i, ← bit_emod x (i + r)]
  obtain ⟨j, hj, hlt⟩ : ∃ j : Nat, i % 64 = j ∧ j < 64 := ⟨(i % 64).toNat, by omega, by omega⟩
  have hsum : (i + r) % 64 = ((j + r) % 64 : Nat) := by omega
  rw [hj, hsum, bit_natCast _ hlt, bit_natCast _ (Nat.mod_lt _ (by decide))]
  unfold rotateRight64
  rw [BitVec.getLsbD_or, BitVec.getLsbD_ushiftRight, BitVec.getLsbD_shiftLeft, decide_eq_true hlt,
    Bool.true_and]
  by_cases hzero : r % 64 = 0
  · have hmod : (j + r) % 64 = j := by omega
    rw [hzero, hmod]
    simp only [Nat.zero_add, Nat.sub_zero, Nat.mod_self, Nat.not_lt_zero, decide_false, Bool.not_false,
      Bool.true_and, Bool.or_self]
  · have hback : (64 - r % 64) % 64 = 64 - r % 64 := Nat.mod_eq_of_lt (by omega)
    rw [hback]
    by_cases hfit : j < 64 - r % 64
    · have hmod : (j + r) % 64 = r % 64 + j := by omega
      rw [decide_eq_true hfit, hmod]
      simp only [Bool.not_true, Bool.false_and, Bool.or_false]
    · have hmod : (j + r) % 64 = j - (64 - r % 64) := by omega
      rw [decide_eq_false hfit, hmod, BitVec.getLsbD_of_ge x (r % 64 + j) (by omega)]
      simp only [Bool.not_false, Bool.true_and, Bool.false_or]

theorem rotateRight64_eq_iff (x : BitVec 64) (s : Nat) : rotateRight64 x s = x ↔ Periodic (bit x) s := by
  constructor
  · intro h i
    rw [← bit_rotateRight64, h]
  · intro h
    apply eq_of_bit
    funext i
    rw [bit_rotateRight64]
    exact h i

theorem find_range {p : Nat → Bool} {n i : Nat} (h : (List.range n).find? p = some i) :
    i < n ∧ p i = true ∧ ∀ j < i, p j = false := by
  rw [List.find?_range_eq_some] at h
  refine ⟨List.mem_range.mp h.2.1, h.1, fun j hj => ?_⟩
  have hnot := h.2.2 j hj
  rwa [Bool.not_eq_true'] at hnot

theorem ctz_spec {j : Nat} (hj : j < 64) (h : x.getLsbD j = true) :
    ctz x < 64 ∧ x.getLsbD (ctz x) = true ∧ ∀ k < ctz x, x.getLsbD k = false := by
  unfold ctz
  cases hfind : (List.range 64).find? fun i => x.getLsbD i with
  | none =>
    rw [List.find?_eq_none] at hfind
    exact absurd h (hfind j (List.mem_range.mpr hj))
  | some i => exact find_range hfind

theorem clz_spec {j : Nat} (hj : j < 64) (h : x.getLsbD j = true) :
    clz x < 64 ∧ x.getLsbD (63 - clz x) = true ∧ ∀ k < clz x, x.getLsbD (63 - k) = false := by
  unfold clz
  cases hfind : (List.range 64).find? fun i => x.getLsbD (63 - i) with
  | none =>
    rw [List.find?_eq_none] at hfind
    refine absurd ?_ (hfind (63 - j) (List.mem_range.mpr (by omega)))
    rwa [show 63 - (63 - j) = j by omega]
  | some i => exact find_range hfind

theorem runs_of_ends (hfirst : bit x 0 = true) (hlast : bit x (-1) = false) :
    Runs (bit x) (clz x) (ctz (~~~x)) ∧ 0 < clz x ∧ 0 < ctz (~~~x) := by
  have hone : x.getLsbD 0 = true := hfirst
  have hzero : x.getLsbD 63 = false := hlast
  obtain ⟨hzlt, hzstop, hz⟩ := clz_spec (by decide) hone
  have hnot : ∀ i, i < 64 → (~~~x).getLsbD i = !x.getLsbD i := fun i hi => by
    rw [BitVec.getLsbD_not, decide_eq_true hi, Bool.true_and]
  obtain ⟨holt, hostop, ho⟩ := ctz_spec (x := ~~~x) (show 63 < 64 by decide) (by rw [hnot 63 (by decide), hzero]; rfl)
  have hzpos : 0 < clz x := by
    by_contra hle
    rw [Nat.eq_zero_of_not_pos hle, Nat.sub_zero, hzero] at hzstop
    cases hzstop
  have hopos : 0 < ctz (~~~x) := by
    by_contra hle
    rw [Nat.eq_zero_of_not_pos hle, hnot 0 (by decide), hone] at hostop
    cases hostop
  refine ⟨⟨fun i hlow hhigh => ?_, ?_, fun i hlow hhigh => ?_, ?_⟩, hzpos, hopos⟩
  · obtain ⟨j, rfl⟩ := Int.eq_ofNat_of_zero_le hlow
    have hj : j < ctz (~~~x) := by omega
    rw [bit_natCast x (by omega)]
    have hbit := ho j hj
    rw [hnot j (by omega)] at hbit
    exact (Bool.not_eq_false' _).mp hbit
  · rw [bit_natCast x holt]
    rw [hnot _ holt] at hostop
    exact (Bool.not_eq_true' _).mp hostop
  · have hindex : i % 64 = (63 - (-i - 1).toNat : Nat) := by omega
    rw [← bit_emod, hindex, bit_natCast x (by omega)]
    exact hz (-i - 1).toNat (by omega)
  · have hindex : (-(clz x : ℤ) - 1) % 64 = (63 - clz x : Nat) := by omega
    rw [← bit_emod, hindex, bit_natCast x (by omega)]
    exact hzstop

theorem getLsbD_and_add_one {t : Nat} (ht : t < 64) (hstop : x.getLsbD t = false)
    (hones : ∀ k < t, x.getLsbD k = true) (i : Nat) :
    (x &&& (x + 1)).getLsbD i = (decide (t < i) && x.getLsbD i) := by
  have hlow : x.toNat % 2 ^ (t + 1) = 2 ^ t - 1 := by
    apply Nat.eq_of_testBit_eq
    intro j
    rw [Nat.testBit_mod_two_pow, Nat.testBit_two_pow_sub_one]
    rcases Nat.lt_trichotomy j t with hlt | rfl | hgt
    · rw [BitVec.testBit_toNat, hones j hlt, decide_eq_true hlt, decide_eq_true (by omega)]
      rfl
    · rw [BitVec.testBit_toNat, hstop, decide_eq_false (Nat.lt_irrefl _), Bool.and_false]
    · rw [decide_eq_false (by omega), decide_eq_false (by omega), Bool.false_and]
  have hpow : 2 ^ (t + 1) = 2 ^ t + 2 ^ t := by
    rw [Nat.pow_succ]
    omega
  have hpos : 0 < 2 ^ t := Nat.two_pow_pos t
  have hsplit := Nat.div_add_mod x.toNat (2 ^ (t + 1))
  rw [hlow] at hsplit
  have htop : x.toNat + 1 < 2 ^ 64 := by
    by_contra hge
    have hmax : x.toNat = 2 ^ 64 - 1 := by
      have hlt := x.isLt
      omega
    have hbit := BitVec.testBit_toNat x (i := t)
    rw [hstop, hmax, Nat.testBit_two_pow_sub_one, decide_eq_true ht] at hbit
    cases hbit
  have hnext : (x + 1).toNat = 2 ^ (t + 1) * (x.toNat / 2 ^ (t + 1)) + 2 ^ t := by
    rw [BitVec.toNat_add, show (1 : BitVec 64).toNat = 1 from rfl, Nat.mod_eq_of_lt htop]
    omega
  have hsucc : (x + 1).getLsbD i = if i < t + 1 then decide (t = i) else x.getLsbD i := by
    rw [← BitVec.testBit_toNat (x + 1), hnext, Nat.testBit_two_pow_mul_add _ (by omega)]
    split
    · rw [Nat.testBit_two_pow]
    · rw [Nat.testBit_div_two_pow, Nat.sub_add_cancel (by omega), BitVec.testBit_toNat]
  rw [BitVec.getLsbD_and, hsucc]
  split
  · rw [decide_eq_false (by omega : ¬t < i), Bool.false_and]
    by_cases heq : t = i
    · rw [← heq, hstop, Bool.false_and]
    · rw [decide_eq_false heq, Bool.and_false]
  · rw [decide_eq_true (by omega : t < i), Bool.true_and, Bool.and_self]

theorem getLsbD_zero_word (i : Nat) : (0 : BitVec 64).getLsbD i = false := BitVec.getLsbD_zero

theorem exists_bit (h : x ≠ 0) : ∃ j < 64, x.getLsbD j = true := by
  by_contra hall
  apply h
  apply BitVec.eq_of_getLsbD_eq
  intro i hi
  rw [getLsbD_zero_word]
  by_contra hbit
  exact hall ⟨i, hi, (Bool.not_eq_false _).mp hbit⟩

theorem immRotation_spec (hzero : x ≠ 0) (hones : ~~~x ≠ 0) :
    bit (rotateRight64 x (immRotation x)) 0 = true ∧
      bit (rotateRight64 x (immRotation x)) (-1) = false ∧ immRotation x < 64 := by
  obtain ⟨j, hj, hbit⟩ := exists_bit hones
  obtain ⟨ht, hstop, hbelow⟩ := ctz_spec hj hbit
  generalize ctz (~~~x) = t at ht hstop hbelow
  have hnot : ∀ i, i < 64 → (~~~x).getLsbD i = !x.getLsbD i := fun i hi => by
    rw [BitVec.getLsbD_not, decide_eq_true hi, Bool.true_and]
  rw [hnot t ht, Bool.not_eq_true'] at hstop
  have hrun : ∀ k < t, x.getLsbD k = true := by
    intro k hk
    have hk' := hbelow k hk
    rwa [hnot k (by omega), Bool.not_eq_false'] at hk'
  have htmp := getLsbD_and_add_one ht hstop hrun
  have habove : ∀ i, t < i → (x &&& (x + 1)).getLsbD i = x.getLsbD i := by
    intro i hi
    rw [htmp, decide_eq_true hi, Bool.true_and]
  rw [bit_rotateRight64, bit_rotateRight64]
  unfold immRotation
  dsimp only
  split
  case isTrue hnone =>
      -- the ones at the bottom are all there are
      have hclear : ∀ i, t ≤ i → x.getLsbD i = false := by
        intro i hi
        rcases Nat.eq_or_lt_of_le hi with rfl | hlt
        · exact hstop
        · rw [← habove i hlt, hnone, getLsbD_zero_word]
      obtain ⟨j, -, hset⟩ := exists_bit hzero
      have hpos : j < t := by
        by_contra hge
        rw [hclear j (by omega)] at hset
        cases hset
      exact ⟨hrun 0 (by omega), hclear 63 (by omega), by decide⟩
  case isFalse hsome =>
      obtain ⟨j, hj, hset⟩ := exists_bit hsome
      obtain ⟨hr, hfirst, hless⟩ := ctz_spec hj hset
      generalize ctz (x &&& (x + 1)) = r at hr hfirst hless
      have htr : t < r := by
        by_contra hge
        rw [htmp, decide_eq_false hge] at hfirst
        cases hfirst
      have hindex : (-1 : ℤ) + r = (r - 1 : Nat) := by omega
      rw [Int.zero_add, bit_natCast x hr, hindex, bit_natCast x (by omega), ← habove r htr]
      refine ⟨hfirst, ?_, hr⟩
      rcases Nat.eq_or_lt_of_le (show t ≤ r - 1 by omega) with heq | hlt
      · rw [← heq, hstop]
      · rw [← habove _ hlt]
        exact hless _ (by omega)

/-- The word is a run of `k` ones in an element of `e` bits, repeated, and turned `r` bits to the right. -/
def RunOfOnes {w : Nat} (val : BitVec w) (e k r : Nat) : Prop :=
  0 < k ∧ k < e ∧ r < e ∧ ∀ i < w, val.getLsbD i = decide ((i + r) % e < k)

def IsRotatedRun {w : Nat} (val : BitVec w) : Prop :=
  ∃ n k r, 2 ^ n ≤ w ∧ RunOfOnes val (2 ^ n) k r

def runFields (e k r : Nat) : LogicalFields where
  n := e >>> 6
  immr := r
  imms := ((-(BitVec.ofNat 32 e <<< 1) ||| (BitVec.ofNat 32 k - 1)) &&& 0x3f).toNat

def LogicalFields.Fit (fields : LogicalFields) : Prop := fields.n < 2 ∧ fields.immr < 64 ∧ fields.imms < 64

theorem pow_le_word {n : Nat} (h : 2 ^ n ≤ 64) : n ≤ 6 := (Nat.pow_le_pow_iff_right (by decide)).mp h

theorem RunOfOnes.isRun {n k r : Nat} (hn : 2 ^ n ≤ 64) (h : RunOfOnes x (2 ^ n) k r) :
    IsRun (bit x) (2 ^ n : Nat) k r := by
  intro i
  have hdvd : ((2 ^ n : Nat) : ℤ) ∣ 64 := by
    exact_mod_cast pow_dvd_pow 2 (pow_le_word hn)
  rw [← bit_emod]
  obtain ⟨j, hj, hlt⟩ : ∃ j : Nat, i % 64 = j ∧ j < 64 := ⟨(i % 64).toNat, by omega, by omega⟩
  have hsame : (i + r) % (2 ^ n : Nat) = ((j + r) % 2 ^ n : Nat) := by
    rw [← Int.emod_add_emod, ← Int.emod_emod_of_dvd i hdvd, hj, Int.emod_add_emod]
    exact_mod_cast rfl
  rw [hj, bit_natCast x hlt, h.2.2.2 j hlt, hsame]
  exact decide_eq_decide.mpr Int.ofNat_lt.symm

theorem immr_eq : ∀ n : Fin 7, ∀ rotation : Fin 64,
    (-(BitVec.ofNat 32 rotation) &&& (BitVec.ofNat 32 (2 ^ n.val) - 1)).toNat =
      (2 ^ n.val - rotation % 2 ^ n.val) % 2 ^ n.val := by decide +kernel

theorem immFields_eq {n rotation : Nat} (hn : n ≤ 6) (hr : rotation < 64) (k : Nat) :
    immFields rotation (2 ^ n) k = runFields (2 ^ n) k ((2 ^ n - rotation % 2 ^ n) % 2 ^ n) := by
  unfold immFields runFields
  rw [immr_eq ⟨n, by omega⟩ ⟨rotation, hr⟩]

theorem imms_spec : ∀ n : Fin 7, ∀ k : Fin 64, 0 < k.val → k.val < 2 ^ n.val →
    let fields := runFields (2 ^ n.val) k 0
    fields.n < 2 ∧ fields.imms < 64 ∧ 2 ≤ fields.n * 64 + (63 - fields.imms) ∧
      2 ^ Nat.log2 (fields.n * 64 + (63 - fields.imms)) = 2 ^ n.val ∧
      fields.imms % 2 ^ n.val = k - 1 := by decide +kernel

theorem runFields_fit {n k r : Nat} (hn : n ≤ 6) (hk : 0 < k) (hke : k < 2 ^ n) (hr : r < 2 ^ n) :
    (runFields (2 ^ n) k r).Fit := by
  have hle : 2 ^ n ≤ 64 := Nat.pow_le_pow_right (by decide) hn
  obtain ⟨hone, hsix, -⟩ := imms_spec ⟨n, by omega⟩ ⟨k, by omega⟩ hk hke
  exact ⟨hone, Nat.lt_of_lt_of_le hr hle, hsix⟩

theorem decode_runFields {n k r : Nat} (hn : n ≤ 6) (h : RunOfOnes x (2 ^ n) k r) :
    decodeBitMasks (runFields (2 ^ n) k r) = some x := by
  obtain ⟨hk, hke, hr, hbits⟩ := h
  have hle : 2 ^ n ≤ 64 := Nat.pow_le_pow_right (by decide) hn
  obtain ⟨-, -, htop, hsize, hones⟩ := imms_spec ⟨n, by omega⟩ ⟨k, by omega⟩ hk hke
  change 2 ≤ (runFields (2 ^ n) k r).n * 64 + (63 - (runFields (2 ^ n) k r).imms) at htop
  change 2 ^ Nat.log2 ((runFields (2 ^ n) k r).n * 64 + (63 - (runFields (2 ^ n) k r).imms)) = 2 ^ n at hsize
  change (runFields (2 ^ n) k r).imms % 2 ^ n = k - 1 at hones
  unfold decodeBitMasks
  dsimp only
  rw [if_neg (by omega), hsize, hones, if_neg (by omega), Option.some.injEq]
  apply BitVec.eq_of_getLsbD_eq
  intro i hi
  rw [BitVec.getLsbD_ofNat, decide_eq_true hi, Bool.true_and, Nat.testBit_ofBits_lt _ _ hi, hbits i hi]
  change decide ((i + r % 2 ^ n) % 2 ^ n ≤ k - 1) = _
  rw [Nat.mod_eq_of_lt hr]
  exact decide_eq_decide.mpr (by omega)

theorem rotated_isRun {e k r : Nat} (h : IsRun (bit x) e k r) (rotation : Nat) :
    IsRun (bit (rotateRight64 x rotation)) e k (rotation + r) := by
  intro i
  rw [bit_rotateRight64, h, Int.natCast_add, Int.add_assoc]

theorem turn_back {e rotation : Nat} (he : 0 < e) (i : ℤ) :
    (i - rotation) % e = (i + ((e - rotation % e) % e : Nat)) % e := by
  have hlt := Nat.mod_lt rotation he
  have hnat : ((e - rotation % e : Nat) : ℤ) = e - rotation % e := by
    push_cast [Nat.cast_sub (Nat.le_of_lt hlt)]
    rfl
  rw [Int.natCast_mod, Int.add_emod_emod, hnat, show i + ((e : ℤ) - rotation % e) = (i - rotation % e) + e by ring,
    Int.add_emod_right, Int.sub_emod_emod]

theorem accepted_run (h : isLogicalImmediate64 x = some fields) :
    ∃ n k r, n ≤ 6 ∧ RunOfOnes x (2 ^ n) k r ∧ fields = runFields (2 ^ n) k r := by
  unfold isLogicalImmediate64 at h
  split at h
  case isTrue => cases h
  case isFalse hends =>
      rw [not_or] at hends
      obtain ⟨hfirst, hlast, hrotation⟩ := immRotation_spec hends.1 hends.2
      obtain ⟨hruns, hz, ho⟩ := runs_of_ends hfirst hlast
      dsimp only at h
      split at h
      case isTrue => cases h
      case isFalse hsame =>
          rw [not_not, rotateRight64_eq_iff] at hsame
          rw [Option.some.injEq] at h
          generalize hz' : clz (rotateRight64 x (immRotation x)) = z at hruns hz h hsame
          generalize ho' : ctz (~~~rotateRight64 x (immRotation x)) = o at hruns ho h hsame
          have hperiod : Periodic (bit (rotateRight64 x (immRotation x))) (z + o : Nat) := by
            intro i
            rw [bit_rotateRight64, bit_rotateRight64, Int.add_right_comm]
            exact hsame _
          obtain ⟨n, hn, hsize⟩ := (Nat.dvd_prime_pow Nat.prime_two).mp
            (show z + o ∣ 2 ^ 6 from hruns.dvd hz hperiod (periodic_bit _))
          have hpos : 0 < 2 ^ n := Nat.two_pow_pos n
          rw [hsize, immFields_eq hn hrotation] at h
          refine ⟨n, o, _, hn, ⟨ho, by omega, Nat.mod_lt _ hpos, fun i hi => ?_⟩, h.symm⟩
          have hbit := hruns.eq_decide hz hperiod (i - immRotation x)
          rw [bit_rotateRight64, Int.sub_add_cancel, bit_natCast x hi, hsize, turn_back hpos] at hbit
          rw [hbit]
          exact decide_eq_decide.mpr (by exact_mod_cast Iff.rfl)

theorem run_accepted {n k r : Nat} (hn : n ≤ 6) (h : RunOfOnes x (2 ^ n) k r) :
    isLogicalImmediate64 x = some (runFields (2 ^ n) k r) := by
  have hle : 2 ^ n ≤ 64 := Nat.pow_le_pow_right (by decide) hn
  have hpos : 0 < 2 ^ n := Nat.two_pow_pos n
  have hrun := h.isRun hle
  obtain ⟨hk, hke, hr, -⟩ := h
  have hzero : x ≠ 0 := by
    rintro rfl
    have hbit := hrun (-r)
    rw [Int.add_left_neg, Int.zero_emod, decide_eq_true (by omega)] at hbit
    unfold bit at hbit
    rw [getLsbD_zero_word] at hbit
    cases hbit
  have hones : ~~~x ≠ 0 := by
    intro hzero
    have hbit := hrun (k - r)
    have hnot := bit_not x (k - r)
    rw [Int.sub_add_cancel, Int.emod_eq_of_lt (by omega) (by omega), decide_eq_false (by omega)] at hbit
    rw [hbit, hzero] at hnot
    unfold bit at hnot
    rw [getLsbD_zero_word] at hnot
    cases hnot
  obtain ⟨hfirst, hlast, hrotation⟩ := immRotation_spec hzero hones
  have hturned := rotated_isRun hrun (immRotation x)
  have hmod := hturned.emod_eq_zero hke hfirst hlast
  obtain ⟨hz, ho⟩ := (runs_of_ends hfirst hlast).1.unique (hturned.runs hk hke hmod)
  have hsize : clz (rotateRight64 x (immRotation x)) + ctz (~~~rotateRight64 x (immRotation x)) = 2 ^ n := by
    omega
  unfold isLogicalImmediate64
  rw [if_neg (not_or.mpr ⟨hzero, hones⟩)]
  dsimp only
  rw [hsize, if_neg, immFields_eq hn hrotation, ho]
  · have hback : (immRotation x + r) % 2 ^ n = 0 := by exact_mod_cast hmod
    have hlt := Nat.mod_lt (immRotation x) hpos
    have hr' : r = (2 ^ n - immRotation x % 2 ^ n) % 2 ^ n := by
      rw [← Nat.mod_add_mod] at hback
      by_cases hsmall : immRotation x % 2 ^ n + r < 2 ^ n
      · rw [Nat.mod_eq_of_lt hsmall] at hback
        rw [show immRotation x % 2 ^ n = 0 by omega, Nat.sub_zero, Nat.mod_self]
        omega
      · rw [Nat.mod_eq_sub_mod (by omega), Nat.mod_eq_of_lt (by omega)] at hback
        rw [Nat.mod_eq_of_lt (by omega)]
        omega
    rw [← hr']
  · rw [not_not, rotateRight64_eq_iff]
    exact hrun.periodic

theorem isLogicalImmediate64_rotatedRun (x : BitVec 64) :
    (isLogicalImmediate64 x).isSome ↔ IsRotatedRun x := by
  rw [Option.isSome_iff_exists]
  constructor
  · rintro ⟨fields, hsome⟩
    obtain ⟨n, k, r, hn, hrun, -⟩ := accepted_run hsome
    exact ⟨n, k, r, Nat.pow_le_pow_right (by decide) hn, hrun⟩
  · rintro ⟨n, k, r, hn, hrun⟩
    exact ⟨_, run_accepted (pow_le_word hn) hrun⟩

theorem isLogicalImmediate64_decode (h : isLogicalImmediate64 x = some fields) :
    fields.Fit ∧ decodeBitMasks fields = some x := by
  obtain ⟨n, k, r, hn, hrun, rfl⟩ := accepted_run h
  exact ⟨runFields_fit hn hrun.1 hrun.2.1 hrun.2.2.1, decode_runFields hn hrun⟩

/-- The word that the test of 32 bits looks at. -/
def replicate32 (val : BitVec 32) : BitVec 64 := val.setWidth 64 <<< 32 ||| val.setWidth 64

theorem getLsbD_replicate32 (val : BitVec 32) {i : Nat} (hi : i < 64) :
    (replicate32 val).getLsbD i = val.getLsbD (i % 32) := by
  unfold replicate32
  rw [BitVec.getLsbD_or, BitVec.getLsbD_shiftLeft, BitVec.getLsbD_setWidth, BitVec.getLsbD_setWidth,
    decide_eq_true hi, Bool.true_and, Bool.true_and]
  by_cases hlow : i < 32
  · rw [decide_eq_true hlow, Nat.mod_eq_of_lt hlow]
    rfl
  · rw [decide_eq_false hlow, decide_eq_true (by omega), BitVec.getLsbD_of_ge val i (by omega),
      Bool.or_false, show i % 32 = i - 32 by omega]
    rfl

theorem setWidth_replicate32 (val : BitVec 32) : (replicate32 val).setWidth 32 = val := by
  apply BitVec.eq_of_getLsbD_eq
  intro i hi
  rw [BitVec.getLsbD_setWidth, decide_eq_true hi, Bool.true_and, getLsbD_replicate32 val (by omega),
    Nat.mod_eq_of_lt hi]

theorem runOfOnes_replicate32 (val : BitVec 32) {n k r : Nat} (hn : n ≤ 5) :
    RunOfOnes (replicate32 val) (2 ^ n) k r ↔ RunOfOnes val (2 ^ n) k r := by
  have hdvd : 2 ^ n ∣ 32 := pow_dvd_pow 2 hn
  constructor
  · rintro ⟨hk, hke, hr, hbits⟩
    refine ⟨hk, hke, hr, fun i hi => ?_⟩
    rw [← hbits i (by omega), getLsbD_replicate32 val (by omega), Nat.mod_eq_of_lt hi]
  · rintro ⟨hk, hke, hr, hbits⟩
    refine ⟨hk, hke, hr, fun i hi => ?_⟩
    rw [getLsbD_replicate32 val hi, hbits (i % 32) (Nat.mod_lt i (by decide)), Nat.add_mod,
      Nat.mod_mod_of_dvd i hdvd, ← Nat.add_mod]

theorem runFields_n {n k r : Nat} (hn : n ≤ 6) : (runFields (2 ^ n) k r).n = 0 ↔ n ≤ 5 := by
  have hsize : ∀ m : Fin 7, (2 ^ m.val) >>> 6 = 0 ↔ m.val ≤ 5 := by decide
  exact hsize ⟨n, by omega⟩

theorem isLogicalImmediate32_iff (val : BitVec 32) (fields : LogicalFields) :
    isLogicalImmediate32 val = some fields ↔
      ∃ n k r, n ≤ 5 ∧ RunOfOnes val (2 ^ n) k r ∧ fields = runFields (2 ^ n) k r := by
  unfold isLogicalImmediate32
  constructor
  · intro h
    split at h
    case isTrue => cases h
    case isFalse =>
        change (match isLogicalImmediate64 (replicate32 val) with
          | none => none
          | some fields => if fields.n ≠ 0 then none else some fields) = some fields at h
        split at h
        case h_1 => cases h
        case h_2 found hfound =>
            obtain ⟨n, k, r, hn, hrun, rfl⟩ := accepted_run hfound
            split at h
            case isTrue => cases h
            case isFalse hsmall =>
                rw [not_not, runFields_n hn] at hsmall
                rw [Option.some.injEq] at h
                exact ⟨n, k, r, hsmall, (runOfOnes_replicate32 val hsmall).mp hrun, h.symm⟩
  · rintro ⟨n, k, r, hn, hrun, rfl⟩
    have hle : 2 ^ n ≤ 32 := Nat.pow_le_pow_right (by decide) hn
    have hfound := run_accepted (Nat.le_succ_of_le hn) ((runOfOnes_replicate32 val hn).mpr hrun)
    obtain ⟨hk, hke, hr, hbits⟩ := hrun
    rw [if_neg]
    · change (match isLogicalImmediate64 (replicate32 val) with
        | none => none
        | some fields => if fields.n ≠ 0 then none else some fields) = _
      rw [hfound]
      dsimp only
      rw [if_neg (not_not.mpr ((runFields_n (Nat.le_succ_of_le hn)).mpr hn))]
    · -- one bit of the run is set and one of the element is not
      rintro (rfl | rfl)
      · have hbit := hbits ((2 ^ n - r) % 2 ^ n) (Nat.lt_of_lt_of_le (Nat.mod_lt _ (by omega)) hle)
        rw [Nat.mod_add_mod, Nat.sub_add_cancel (Nat.le_of_lt hr), Nat.mod_self, decide_eq_true hk] at hbit
        rw [show BitVec.getLsbD 0 ((2 ^ n - r) % 2 ^ n) = false from BitVec.getLsbD_zero] at hbit
        cases hbit
      · have hlast : (2 ^ n - 1 - r + r) % 2 ^ n = 2 ^ n - 1 := by
          rw [Nat.sub_add_cancel (by omega), Nat.mod_eq_of_lt (by omega)]
        have hbit := hbits (2 ^ n - 1 - r) (by omega)
        rw [hlast, decide_eq_false (by omega)] at hbit
        rw [show (0xFFFFFFFF : BitVec 32) = BitVec.allOnes 32 from rfl, BitVec.getLsbD_allOnes,
          decide_eq_true (by omega)] at hbit
        cases hbit

theorem isLogicalImmediate32_rotatedRun (val : BitVec 32) :
    (isLogicalImmediate32 val).isSome ↔ IsRotatedRun val := by
  rw [Option.isSome_iff_exists]
  constructor
  · rintro ⟨fields, hsome⟩
    obtain ⟨n, k, r, hn, hrun, -⟩ := (isLogicalImmediate32_iff val fields).mp hsome
    exact ⟨n, k, r, Nat.pow_le_pow_right (by decide) hn, hrun⟩
  · rintro ⟨n, k, r, hn, hrun⟩
    have hn' : n ≤ 5 := (Nat.pow_le_pow_iff_right (by decide)).mp hn
    exact ⟨_, (isLogicalImmediate32_iff val _).mpr ⟨n, k, r, hn', hrun, rfl⟩⟩

theorem isLogicalImmediate32_decode {val : BitVec 32} (h : isLogicalImmediate32 val = some fields) :
    fields.Fit ∧ fields.n = 0 ∧ decodeBitMasks fields = some (replicate32 val) := by
  obtain ⟨n, k, r, hn, hrun, rfl⟩ := (isLogicalImmediate32_iff val fields).mp h
  have hn' := Nat.le_succ_of_le hn
  exact ⟨runFields_fit hn' hrun.1 hrun.2.1 hrun.2.2.1, (runFields_n hn').mpr hn,
    decode_runFields hn' ((runOfOnes_replicate32 val hn).mpr hrun)⟩

end HashLink.Arm64
