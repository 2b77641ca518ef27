import HashLink.Gc.AllocatorSafety
import HashLink.Lib.WrappedInt

/-! The sizes of an allocation, computed in 32-bit integers: the request is rounded up to the alignment and to the
blocks of a partition, and a new page is as large as its blocks and the table of their sizes need. The exact
arithmetic is that of `gcAllocatorAlloc`. -/

namespace HashLink.Gc

open WrappedInt Allocator

/-- `sz + ((-sz) & (unit - 1))`, for a power of two; the unit of the large partition is zero. -/
def roundUp (sz : Int) (unit : Nat) : WrappedInt AllocError Int := do
  let neg ← int32 (-sz)
  int32 (sz + if unit = 0 then neg else neg % unit)

/-- `GC_SIZES[part]`. -/
def sizeOfPart (part : Int) : WrappedInt AllocError Nat :=
  if 0 ≤ part ∧ part < 9 then pure (gcSizes part.toNat) else stop .badAccess

/-- What `gc_allocator_new_page` computes: the size of the page, its blocks, the end of the table of their sizes, and
the first block after it. -/
structure PagePlan where
  size : Int
  maxBlocks : Int
  table : Int
  firstBlock : Int

/-- The loop that makes a page larger where there are many. -/
def growSize (block numPages : Nat) (size : Int) : WrappedInt AllocError Int :=
  if 8 < numPages then do
    let twice ← int32 (size * 2)
    if twice / block ≤ gcPageSize then growSize block (numPages / 3) twice else pure size
  else pure size
termination_by numPages
decreasing_by omega

/-- The size of a new page, where `numPages` are on the list. -/
def planSize (block numPages : Nat) (size : Int) : WrappedInt AllocError Int :=
  if block < 256 then growSize block numPages size else pure size

def planTable (maxBlocks : Int) (varsize : Bool) : WrappedInt AllocError Int :=
  if varsize ∧ (sizesPadding : Int) < maxBlocks then roundUp maxBlocks 64 else pure 0

/-- `start_pos` at a block. -/
def planStart (block : Nat) (start : Int) : WrappedInt AllocError Int :=
  if start % block ≠ 0 then int32 (start + (block - start % block)) else pure start

/-- The arithmetic of `gc_allocator_new_page`. -/
def planPage (block : Nat) (size : Int) (numPages : Nat) (varsize : Bool) : WrappedInt AllocError PagePlan := do
  let size ← planSize block numPages size
  if (gcPageSize : Int) < size / block then stop .fatal
  else do
    let table ← planTable (size / block) varsize
    let start ← planStart block table
    return ⟨size, size / block, table, start / block⟩

/-- The size of a new page of `gc_alloc_var`. -/
def planVarSize (size : Int) : Nat → Int → WrappedInt AllocError Int
  | 0, psize => pure psize
  | fuel + 1, psize => do
      let limit ← int32 (size + 1024)
      if psize < limit then planVarSize size fuel (← int32 (psize * 2)) else pure psize

def planPart (sz : Int) : List Nat → WrappedInt AllocError (Nat × Int)
  | [] => stop .fatal
  | part :: parts => do
      let query ← roundUp sz (gcSizes part)
      let limit ← int32 (gcSizes part * 255)
      if query < limit then pure (part, query) else planPart sz parts

/-- An allocation: the partition, the size of the block it returns, as `blocks` blocks, and the page that is created
where none has the blocks. -/
structure AllocPlan where
  part : Int
  allocated : Int
  block : Int
  blocks : Int
  page : PagePlan

/-- The arithmetic of `gc_alloc_var`. -/
def planVar (part : Nat) (size : Int) (numPages : Nat) : WrappedInt AllocError AllocPlan := do
  let psize ← planVarSize size 32 gcPageSize
  let page ← planPage (gcSizes part) psize numPages true
  return ⟨part, size, gcSizes part, size / 2 ^ gcSbits part, page⟩

/-- The arithmetic of `gc_allocator_alloc`, where the list of the partition has `numPages` pages. -/
def planAlloc (size : Int) (kind : MemKind) (numPages : Nat) : WrappedInt AllocError AllocPlan := do
  let sz ← roundUp size gcAlign
  if (gcLargeBlock : Int) ≤ sz then do
    let sz ← roundUp sz gcPageSize
    let page ← planPage sz.toNat sz numPages false
    return ⟨gcLargePart, sz, sz, 1, page⟩
  else if sz ≤ gcSizes (gcFixedParts - 1) ∧ kind ≠ .finalizer then do
    let block ← sizeOfPart (sz / gcAlign - 1)
    let page ← planPage block gcPageSize numPages false
    return ⟨sz / gcAlign - 1, block, block, 1, page⟩
  else do
    let found ← planPart sz [5, 6, 7, 8]
    planVar found.1 found.2 numPages

theorem roundUp_ok {n u : Nat} (hunit : u = 8 ∨ u = 64 ∨ u = 8192 ∨ u = 65536)
    (h : n + u ≤ 2 ^ 31) : roundUp n u = pure (query n u : Int) ∧ query n u < 2 ^ 31 := by
  have hneg : (int32 (-(n : Int)) : WrappedInt AllocError Int) = pure (-(n : Int)) :=
    int32_of_fits (by omega) (by omega)
  have hround : (n : Int) + (if u = 0 then -(n : Int) else -(n : Int) % u) = (query n u : Nat) ∧
      query n u < 2 ^ 31 := by
    unfold query
    rcases hunit with rfl | rfl | rfl | rfl
    all_goals rw [if_neg (by decide), if_neg (by decide)]; omega
  rw [roundUp, hneg, pure_bind, hround.1]
  exact ⟨int32_of_fits (by omega) (by omega), hround.2⟩

variable {part sz maxBlocks : Nat}

theorem sizeOfPart_ok (h : part < 9) : sizeOfPart part = pure (gcSizes part) :=
  if_pos ⟨Int.natCast_nonneg part, by omega⟩

variable {size block : Nat} {varsize : Bool}

theorem size_of_blocks (hblock : 0 < block ∧ block < 256) (hsize : size / block ≤ gcPageSize) :
    size < 2 ^ 25 := by
  have hlt : size < (gcPageSize + 1) * block := Nat.lt_mul_of_div_lt (Nat.lt_succ_of_le hsize) hblock.1
  have hle : (gcPageSize + 1) * block ≤ (65536 + 1) * 255 := Nat.mul_le_mul (Nat.le_refl _) (by omega)
  omega

theorem growSize_ok (hblock : 0 < block ∧ block < 256) (numPages size : Nat)
    (hsize : size / block ≤ gcPageSize) :
    growSize block numPages size = pure (growPage block numPages size : Int) := by
  have hmax := size_of_blocks hblock hsize
  induction numPages, size using growPage.induct block with
  | case1 numPages size hgrow ih =>
    have htwice : (int32 ((size : Int) * 2) : WrappedInt AllocError Int) = pure ((size * 2 : Nat) : Int) :=
      int32_of_fits (by omega) (by omega)
    have hfits : ((size * 2 : Nat) : Int) / block ≤ gcPageSize := by exact_mod_cast hgrow.2
    rw [growPage, if_pos hgrow, growSize, if_pos hgrow.1, htwice, pure_bind, if_pos hfits]
    exact ih hgrow.2 (size_of_blocks hblock hgrow.2)
  | case2 numPages size hstop =>
    rw [growPage, if_neg hstop, growSize]
    split
    · rename_i hmany
      have htwice : (int32 ((size : Int) * 2) : WrappedInt AllocError Int) = pure ((size * 2 : Nat) : Int) :=
        int32_of_fits (by omega) (by omega)
      have hlarge : ¬((size * 2 : Nat) : Int) / block ≤ gcPageSize := fun hle =>
        hstop ⟨hmany, by exact_mod_cast hle⟩
      rw [htwice, pure_bind, if_neg hlarge]
    · rfl

def sizeOfPage (block size numPages : Nat) : Nat := if block < 256 then growPage block numPages size else size

def tableEnd (maxBlocks : Nat) (varsize : Bool) : Nat :=
  if varsize ∧ sizesPadding < maxBlocks then query maxBlocks 64 else 0

def pagePlan (block size numPages : Nat) (varsize : Bool) : PagePlan where
  size := sizeOfPage block size numPages
  maxBlocks := (sizeOfPage block size numPages / block : Nat)
  table := tableEnd (sizeOfPage block size numPages / block) varsize
  firstBlock := (startPos block (sizeOfPage block size numPages / block) varsize / block : Nat)

theorem planSize_ok (numPages : Nat) (hblock : 0 < block) (hlimit : size / block ≤ gcPageSize) :
    planSize block numPages size = pure (sizeOfPage block size numPages : Int) ∧
      sizeOfPage block size numPages / block ≤ gcPageSize := by
  unfold planSize sizeOfPage
  split
  · rename_i hsmall
    exact ⟨growSize_ok ⟨hblock, hsmall⟩ numPages size hlimit, (growPage_spec block numPages size).2 hlimit⟩
  · exact ⟨rfl, hlimit⟩

theorem planTable_ok (varsize : Bool) (hmax : maxBlocks ≤ gcPageSize) :
    planTable maxBlocks varsize = pure (tableEnd maxBlocks varsize : Int) ∧ tableEnd maxBlocks varsize ≤ 65536 := by
  simp only [gcPageSize] at hmax
  unfold planTable tableEnd
  by_cases hvar : varsize ∧ sizesPadding < maxBlocks
  · rw [if_pos hvar, if_pos ⟨hvar.1, by exact_mod_cast hvar.2⟩]
    refine ⟨(roundUp_ok (.inr (.inl rfl)) (by omega)).1, ?_⟩
    rw [query, if_neg (by decide)]
    omega
  · rw [if_neg hvar, if_neg fun h => hvar ⟨h.1, by exact_mod_cast h.2⟩]
    exact ⟨rfl, Nat.zero_le _⟩

theorem startPos_spec (hblock : 0 < block) :
    startPos block maxBlocks varsize = query (tableEnd maxBlocks varsize) block ∧
      tableEnd maxBlocks varsize ≤ startPos block maxBlocks varsize / block * block := by
  have heq : startPos block maxBlocks varsize = query (tableEnd maxBlocks varsize) block := by
    have htable : tableEnd maxBlocks varsize = if varsize ∧ sizesPadding < maxBlocks then
        maxBlocks + (64 - maxBlocks % 64) % 64 else 0 := rfl
    rw [startPos, ← htable, query, if_neg (Nat.ne_of_gt hblock)]
    generalize tableEnd maxBlocks varsize = table
    have hmod := Nat.mod_lt table hblock
    split
    · rw [Nat.mod_eq_of_lt (show block - table % block < block by omega)]
    · rename_i hzero
      rw [not_not.mp hzero, Nat.sub_zero, Nat.mod_self, Nat.add_zero]
  obtain ⟨hle, -, hdvd⟩ := query_spec (tableEnd maxBlocks varsize) hblock
  rw [← heq] at hle hdvd
  rw [Nat.div_mul_cancel hdvd]
  exact ⟨heq, hle⟩

theorem planStart_ok {table : Nat} (hblock : 0 < block ∧ block ≤ 2 ^ 31 - 65536) (hle : table ≤ 65536) :
    planStart block table = pure (query table block : Int) := by
  have hmod := Nat.mod_lt table hblock.1
  rw [planStart, query, if_neg (Nat.ne_of_gt hblock.1)]
  by_cases hm : table % block = 0
  · have hm' : (table : Int) % block = 0 := by exact_mod_cast hm
    rw [if_neg (not_not.mpr hm'), hm, Nat.sub_zero, Nat.mod_self, Nat.add_zero]
  · have hsum : (table : Int) + (block - (table : Int) % block) = (table + (block - table % block) % block : Nat) := by
      rw [← Int.natCast_emod, Nat.mod_eq_of_lt (show block - table % block < block by omega)]
      omega
    rw [if_pos (by exact_mod_cast hm), hsum]
    rw [Nat.mod_eq_of_lt (show block - table % block < block by omega)]
    exact int32_of_fits (by omega) (by omega)

theorem planPage_ok {numPages : Nat} (hblock : 0 < block ∧ block ≤ 2 ^ 31 - 65536)
    (hlimit : size / block ≤ gcPageSize) :
    planPage block size numPages varsize = pure (pagePlan block size numPages varsize) := by
  obtain ⟨hsize, hblocks⟩ := planSize_ok numPages hblock.1 hlimit
  rw [planPage, hsize, pure_bind]
  unfold pagePlan
  generalize sizeOfPage block size numPages = psize at hblocks
  have hfits : ¬(gcPageSize : Int) < (psize : Int) / block := by
    rw [← Int.natCast_ediv]
    exact_mod_cast Nat.not_lt.mpr hblocks
  rw [if_neg hfits, ← Int.natCast_ediv]
  obtain ⟨htable, hle⟩ := planTable_ok varsize hblocks
  rw [htable, pure_bind, planStart_ok hblock hle, pure_bind, (startPos_spec hblock.1).1]
  rfl

theorem planVarSize_ok (size : Nat) (hsize : size + 1024 < 2 ^ 30) (fuel psize : Nat)
    (hpsize : psize = gcPageSize ∨ psize ≤ 2 * (size + 1024)) :
    planVarSize size fuel psize = pure (varPageSize size fuel psize : Int) := by
  have hlimit : (int32 ((size : Int) + 1024) : WrappedInt AllocError Int) = pure ((size : Int) + 1024) :=
    int32_of_fits (by omega) (by omega)
  induction fuel generalizing psize with
  | zero => rfl
  | succ fuel ih =>
    rw [planVarSize, hlimit, pure_bind, varPageSize]
    by_cases hlt : psize < size + 1024
    · have htwice : (int32 ((psize : Int) * 2) : WrappedInt AllocError Int) = pure ((psize * 2 : Nat) : Int) :=
        int32_of_fits (by omega) (by omega)
      rw [if_pos hlt, if_pos (by omega), htwice, pure_bind]
      exact ih _ (.inr (by omega))
    · rw [if_neg hlt, if_neg (by omega)]

theorem planPart_of_find {parts : List Nat}
    (hround : ∀ part ∈ parts, roundUp sz (gcSizes part) = pure (query sz (gcSizes part) : Int) ∧
      (int32 ((gcSizes part : Int) * 255) : WrappedInt AllocError Int) = pure ((gcSizes part * 255 : Nat) : Int))
    (hfind : parts.find? (fun part => query sz (gcSizes part) < gcSizes part * 255) = some part) :
    planPart sz parts = pure (part, (query sz (gcSizes part) : Int)) := by
  induction parts with
  | nil => cases hfind
  | cons p parts ih =>
    obtain ⟨hquery, hlimit⟩ := hround p List.mem_cons_self
    rw [planPart, hquery, pure_bind, hlimit, pure_bind]
    by_cases hlt : query sz (gcSizes p) < gcSizes p * 255
    · rw [List.find?_cons_of_pos (by simpa using hlt)] at hfind
      cases hfind
      rw [if_pos (by exact_mod_cast hlt)]
    · rw [List.find?_cons_of_neg (by simpa using hlt)] at hfind
      rw [if_neg (by exact_mod_cast hlt)]
      exact ih (fun part hpart => hround part (List.mem_cons_of_mem p hpart)) hfind

theorem planPart_ok (hsz : sz < gcLargeBlock) :
    ∃ part, [5, 6, 7, 8].find? (fun part => query sz (gcSizes part) < gcSizes part * 255) = some part ∧
      planPart sz [5, 6, 7, 8] = pure (part, (query sz (gcSizes part) : Int)) := by
  simp only [gcLargeBlock] at hsz
  have hround : ∀ part ∈ [5, 6, 7, 8], roundUp sz (gcSizes part) = pure (query sz (gcSizes part) : Int) ∧
      (int32 ((gcSizes part : Int) * 255) : WrappedInt AllocError Int) = pure ((gcSizes part * 255 : Nat) : Int) := by
    simp only [List.forall_mem_cons]
    refine ⟨⟨(roundUp_ok (.inl rfl) (by omega)).1, rfl⟩, ⟨(roundUp_ok (.inr (.inl rfl)) (by omega)).1, rfl⟩,
      ⟨(roundUp_ok (.inr (.inr (.inl rfl))) (by omega)).1, rfl⟩, ⟨?_, rfl⟩, fun _ h => absurd h List.not_mem_nil⟩
    have hneg : (int32 (-(sz : Int)) : WrappedInt AllocError Int) = pure (-(sz : Int)) :=
      int32_of_fits (by omega) (by omega)
    have hzero : gcSizes 8 = 0 := rfl
    rw [roundUp, hneg, pure_bind, hzero, if_pos rfl, Int.add_right_neg]
    rfl
  have hlast : query sz (gcSizes 7) < gcSizes 7 * 255 := by
    have hup := (query_spec sz (show 0 < gcSizes 7 by decide)).2.1
    have h7 : gcSizes 7 = 8192 := rfl
    omega
  obtain ⟨part, hfind⟩ : ∃ part, [5, 6, 7, 8].find? (fun part => query sz (gcSizes part) < gcSizes part * 255) =
      some part := by
    refine Option.ne_none_iff_exists'.mp fun hnone => ?_
    exact absurd (by simpa using hlast) (List.find?_eq_none.mp hnone 7 (by simp))
  exact ⟨part, hfind, planPart_of_find hround hfind⟩

/-- What an allocation is to do: the partition is one of the tables', the block holds the request, and the new page
has the blocks after the table of their sizes, with an entry for each. -/
structure AllocPlan.Right (plan : AllocPlan) (size : Nat) : Prop where
  part : 0 ≤ plan.part ∧ plan.part < 9
  block : size ≤ plan.allocated ∧ plan.allocated < 2 ^ 31 ∧ plan.blocks * plan.block = plan.allocated
  table : plan.page.table ≤ plan.page.firstBlock * plan.block ∧
    (5 ≤ plan.part ∧ plan.part < 8 → 8 < plan.page.maxBlocks → plan.page.maxBlocks ≤ plan.page.table)
  room : 0 ≤ plan.page.firstBlock ∧ 0 < plan.blocks ∧
    plan.page.firstBlock + plan.blocks ≤ plan.page.maxBlocks ∧ plan.page.maxBlocks * plan.block ≤ plan.page.size

theorem AllocPlan.right_of {allocated k psize table first : Nat} (hpart : part < 9)
    (htable : table ≤ first * block ∧ (5 ≤ part ∧ part < 8 → 8 < maxBlocks → maxBlocks ≤ table))
    (hblock : size ≤ allocated ∧ allocated < 2 ^ 31 ∧ k * block = allocated)
    (hroom : 0 < k ∧ first + k ≤ maxBlocks ∧ maxBlocks * block ≤ psize) :
    (AllocPlan.mk part allocated block k ⟨psize, maxBlocks, table, first⟩).Right size := by
  refine ⟨⟨Int.natCast_nonneg _, Int.ofNat_lt.mpr hpart⟩, ⟨Int.ofNat_le.mpr hblock.1, ?_, ?_⟩, ⟨?_, fun h h' => ?_⟩,
    Int.natCast_nonneg _, Int.ofNat_lt.mpr hroom.1, Int.ofNat_le.mpr hroom.2.1, ?_⟩
  · show (allocated : Int) < (2 ^ 31 : Nat)
    exact Int.ofNat_lt.mpr hblock.2.1
  · show (k : Int) * (block : Int) = allocated
    exact_mod_cast hblock.2.2
  · show (table : Int) ≤ (first : Int) * (block : Int)
    exact_mod_cast htable.1
  · have hpart' : 5 ≤ part ∧ part < 8 := ⟨Int.ofNat_le.mp h.1, Int.ofNat_lt.mp h.2⟩
    exact Int.ofNat_le.mpr (htable.2 hpart' (Int.ofNat_lt.mp h'))
  · show (maxBlocks : Int) * (block : Int) ≤ psize
    exact_mod_cast hroom.2.2

theorem planAlloc_large (hmax : size + 65536 ≤ 2 ^ 31) (hlarge : gcLargeBlock ≤ query size gcAlign)
    (kind : MemKind) (numPages : Nat) : ∃ plan, planAlloc size kind numPages = pure plan ∧ plan.Right size := by
  obtain ⟨hround, -⟩ := roundUp_ok (u := gcAlign) (.inl rfl) (show size + gcAlign ≤ 2 ^ 31 by unfold gcAlign; omega)
  obtain ⟨hle, hup, hdvd⟩ := query_spec size (show 0 < gcAlign by decide)
  have hfits : query size gcAlign + gcPageSize ≤ 2 ^ 31 := by
    simp only [gcAlign, gcPageSize] at *
    omega
  obtain ⟨hround', -⟩ := roundUp_ok (u := gcPageSize) (.inr (.inr (.inr rfl))) hfits
  obtain ⟨hle', hup', hdvd'⟩ := query_spec (query size gcAlign) (show 0 < gcPageSize by decide)
  have hsz : (gcLargeBlock : Int) ≤ (query size gcAlign : Nat) := by exact_mod_cast hlarge
  rw [planAlloc, hround, pure_bind, if_pos hsz, hround', pure_bind, Int.toNat_natCast]
  generalize query (query size gcAlign) gcPageSize = q at hle' hup' hdvd'
  simp only [gcAlign, gcPageSize, gcLargeBlock] at *
  have hone : q / q = 1 := Nat.div_self (by omega)
  have hsize : sizeOfPage q q numPages = q := if_neg (by omega)
  rw [planPage_ok (by omega) (by rw [hone]; decide), pure_bind, pagePlan, hsize, hone, startPos_fixed, Nat.zero_div]
  exact ⟨_, rfl, AllocPlan.right_of (k := 1) (by decide) ⟨Nat.zero_le _, fun h => absurd h.2 (by decide)⟩
    ⟨by omega, by omega, Nat.one_mul q⟩
    ⟨Nat.one_pos, Nat.le_refl 1, Nat.le_of_eq (Nat.one_mul q)⟩⟩

theorem planAlloc_fixed (hpos : 0 < size) (hsmall : query size gcAlign ≤ 40) {kind : MemKind}
    (hkind : kind ≠ .finalizer) (numPages : Nat) :
    ∃ plan, planAlloc size kind numPages = pure plan ∧ plan.Right size := by
  obtain ⟨hle, hup, hdvd⟩ := query_spec size (show 0 < gcAlign by decide)
  obtain ⟨hround, -⟩ := roundUp_ok (u := gcAlign) (.inl rfl) (show size + gcAlign ≤ 2 ^ 31 by unfold gcAlign; omega)
  obtain ⟨part, hpart⟩ : ∃ part, query size gcAlign = 8 * (part + 1) := by
    obtain ⟨k, hk⟩ := hdvd
    exact ⟨k - 1, by simp only [gcAlign] at *; omega⟩
  have hlt : part < gcFixedParts := by
    simp only [gcFixedParts]
    omega
  have hblock : gcSizes part = 8 * (part + 1) := by
    simp only [gcFixedParts] at hlt
    interval_cases part <;> rfl
  have hlarge : ¬(gcLargeBlock : Int) ≤ (query size gcAlign : Nat) := by
    simp only [gcLargeBlock]
    omega
  have hfixed : ((query size gcAlign : Nat) : Int) ≤ gcSizes (gcFixedParts - 1) ∧ kind ≠ .finalizer :=
    ⟨by exact_mod_cast hsmall, hkind⟩
  have hindex : ((query size gcAlign : Nat) : Int) / gcAlign - 1 = (part : Nat) := by
    rw [hpart, gcAlign]
    omega
  obtain ⟨hblocks, hgrow⟩ : gcPageSize / gcSizes part ≤ gcPageSize ∧
      gcPageSize ≤ sizeOfPage (gcSizes part) gcPageSize numPages := by
    refine ⟨Nat.div_le_self _ _, ?_⟩
    unfold sizeOfPage
    split
    · exact (growPage_spec _ _ _).1
    · exact Nat.le_refl _
  have hmany := fixed_blocks hlt hgrow
  have hpart9 : part < 9 := Nat.lt_trans hlt (by decide)
  rw [planAlloc, hround, pure_bind, if_neg hlarge, if_pos hfixed, hindex, sizeOfPart_ok hpart9, pure_bind,
    planPage_ok (by omega) hblocks, pure_bind, pagePlan, startPos_fixed, Nat.zero_div]
  exact ⟨_, rfl, AllocPlan.right_of (k := 1) hpart9
    ⟨Nat.zero_le _, fun h => by simp only [gcFixedParts] at hlt; omega⟩ ⟨by omega, by omega, Nat.one_mul _⟩
    ⟨Nat.one_pos, by omega, Nat.div_mul_le_self _ _⟩⟩

theorem planVar_ok {k : Nat} (hpart : part = 5 ∨ part = 6 ∨ part = 7) (hpos : 0 < sz)
    (hge : sz ≤ gcSizes part * k) (hlt : gcSizes part * k < gcSizes part * 255)
    (hmax : gcSizes part * k ≤ gcLargeBlock) (numPages : Nat) :
    ∃ plan, planVar part (gcSizes part * k : Nat) numPages = pure plan ∧ plan.Right sz := by
  obtain ⟨hbits, hlow, hlarge, -⟩ := gcSizes_var hpart
  have hhigh : gcSizes part ≤ 8192 := by
    rcases hpart with rfl | rfl | rfl <;> decide
  have hk : 0 < k ∧ k < 255 := ⟨Nat.pos_of_mul_pos_left (show 0 < gcSizes part * k by omega),
    Nat.lt_of_mul_lt_mul_left hlt⟩
  have hvar := planVarSize_ok (gcSizes part * k) (by simp only [gcLargeBlock] at hmax; omega) 32 gcPageSize
    (.inl rfl)
  obtain ⟨hlimit, t, ht, -, hlast⟩ := var_page hpart (Nat.dvd_mul_right _ k) hlt hmax start ⟨0, part, .raw⟩
  have hpsize : gcPageSize ≤ varPageSize (gcSizes part * k) 32 gcPageSize :=
    (varPageSize_spec _ 32 gcPageSize (by simp only [gcPageSize, gcLargeBlock] at *; omega)).2.1
  rw [Nat.mul_div_cancel_left k (by omega)] at hlast
  rw [planVar, hvar, pure_bind, planPage_ok (by omega) hlimit, pure_bind, pagePlan]
  have hgrow : gcPageSize ≤ sizeOfPage (gcSizes part) (varPageSize (gcSizes part * k) 32 gcPageSize) numPages := by
    unfold sizeOfPage
    split
    · exact Nat.le_trans hpsize (growPage_spec _ _ _).1
    · exact hpsize
  have hsame : part = 7 → sizeOfPage (gcSizes part) (varPageSize (gcSizes part * k) 32 gcPageSize) numPages = t := by
    rintro rfl
    rw [← ht, pageSize, sizeOfPage, if_neg (by decide), if_neg (by decide)]
  generalize sizeOfPage (gcSizes part) (varPageSize (gcSizes part * k) 32 gcPageSize) numPages = psize at hgrow hsame
  obtain ⟨hfirst, hroom⟩ := room_of_part hpart hk.2 hgrow fun h => by
    rw [hsame h]
    exact hlast h
  have hblocks : ((gcSizes part * k : Nat) : Int) / 2 ^ gcSbits part = (k : Nat) := by
    rw [show ((2 : Int) ^ gcSbits part) = (gcSizes part : Nat) by exact_mod_cast hbits]
    push_cast
    exact Int.mul_ediv_cancel_left k (by omega)
  rw [hblocks]
  have htable : tableEnd (psize / gcSizes part) true = query (psize / gcSizes part) 64 ∨ ¬8 < psize / gcSizes part := by
    refine or_iff_not_imp_right.mpr fun hmany => if_pos ⟨rfl, not_not.mp hmany⟩
  refine ⟨_, rfl, AllocPlan.right_of (by omega) ⟨(startPos_spec (by omega)).2, fun _ hmany => ?_⟩
    ⟨hge, ?_, Nat.mul_comm _ _⟩ ⟨hk.1, by omega, Nat.div_mul_le_self _ _⟩⟩
  · rw [htable.resolve_right (not_not.mpr hmany)]
    exact (query_spec _ (by decide)).1
  simp only [gcLargeBlock] at hmax
  omega

theorem AllocPlan.Right.mono {plan : AllocPlan} (h : plan.Right sz) (hle : size ≤ sz) :
    plan.Right size :=
  ⟨h.part, ⟨by have := h.block.1; omega, h.block.2⟩, h.table, h.room⟩

theorem planAlloc_var (hpos : 0 < size) (hsz : query size gcAlign < gcLargeBlock) {kind : MemKind}
    (hkind : ¬(query size gcAlign ≤ 40 ∧ kind ≠ .finalizer)) (numPages : Nat) :
    ∃ plan, planAlloc size kind numPages = pure plan ∧ plan.Right size := by
  obtain ⟨hle, -, -⟩ := query_spec size (show 0 < gcAlign by decide)
  obtain ⟨hround, -⟩ := roundUp_ok (u := gcAlign) (n := size) (.inl rfl)
    (by simp only [gcLargeBlock] at hsz; simp only [gcAlign]; omega)
  have hlarge : ¬(gcLargeBlock : Int) ≤ (query size gcAlign : Nat) := by
    simp only [gcLargeBlock] at *
    omega
  have hfixed : ¬(((query size gcAlign : Nat) : Int) ≤ gcSizes (gcFixedParts - 1) ∧ kind ≠ .finalizer) := fun h =>
    hkind ⟨by exact_mod_cast h.1, h.2⟩
  rw [planAlloc, hround, pure_bind, if_neg hlarge, if_neg hfixed]
  generalize query size gcAlign = sz at hle hsz
  obtain ⟨part, hfind, hplan⟩ := planPart_ok hsz
  obtain ⟨hpart, ⟨k, hk⟩, hge, hlt, hmax⟩ := find_part hsz hfind
  rw [hk] at hge hlt hmax
  obtain ⟨plan, hvar, hright⟩ := planVar_ok hpart (by omega) hge hlt hmax numPages
  rw [hplan, pure_bind, hk]
  exact ⟨plan, hvar, hright.mono hle⟩

theorem planAlloc_ok (hpos : 0 < size) (hmax : size + 65536 ≤ 2 ^ 31) (kind : MemKind) (numPages : Nat) :
    ∃ plan, planAlloc size kind numPages = pure plan ∧ plan.Right size := by
  by_cases hlarge : gcLargeBlock ≤ query size gcAlign
  · exact planAlloc_large hmax hlarge kind numPages
  by_cases hfixed : query size gcAlign ≤ 40 ∧ kind ≠ .finalizer
  · exact planAlloc_fixed hpos hfixed.1 hfixed.2 numPages
  · exact planAlloc_var hpos (Nat.lt_of_not_le hlarge) hfixed numPages

theorem roundUp_wraps {n unit : Nat} (hunit : unit = 8 ∨ unit = 65536) (h : n < 2 ^ 31) (hlarge : 2 ^ 31 < n + unit) :
    (roundUp n unit).wrapped = true := by
  have hneg : (int32 (-(n : Int)) : WrappedInt AllocError Int) = pure (-(n : Int)) :=
    int32_of_fits (by omega) (by omega)
  rw [roundUp, hneg, pure_bind]
  refine wrapped_int32 ?_
  rcases hunit with rfl | rfl
  all_goals rw [if_neg (by decide)]; omega

theorem planAlloc_wraps (size : Nat) (h : size < 2 ^ 31) (hlarge : 2 ^ 31 < size + 65536) (kind : MemKind)
    (numPages : Nat) : (planAlloc size kind numPages).wrapped = true := by
  by_cases halign : size + gcAlign ≤ 2 ^ 31
  · obtain ⟨hround, hfits⟩ := roundUp_ok (u := gcAlign) (.inl rfl) halign
    have hle := (query_spec size (show 0 < gcAlign by decide)).1
    have hblock : (gcLargeBlock : Int) ≤ (query size gcAlign : Nat) := by
      simp only [gcLargeBlock]
      omega
    rw [planAlloc, hround, pure_bind, if_pos hblock]
    exact wrapped_bind (roundUp_wraps (.inr rfl) hfits (by simp only [gcPageSize]; omega))
  · exact wrapped_bind (roundUp_wraps (.inl rfl) h (Nat.lt_of_not_le halign))

abbrev Returns {α : Type} (P : α → Prop) : Except AllocError α → Prop := Outcome.Meets (fun _ => True) P

/-- The blocks of a page have the size of its partition; a page of the large partition is one block. -/
def GcPage.Formed (p : GcPage) : Prop := p.pid.part < gcLargePart → p.blockSize = gcSizes p.pid.part

theorem GcPage.Formed.of_eq {p q : GcPage} (h : p.Formed) (hpid : q.pid = p.pid) (hsize : q.blockSize = p.blockSize) :
    q.Formed := by
  unfold GcPage.Formed
  rw [hpid, hsize]
  exact h

theorem GcPage.flushed_form (p : GcPage) :
    Returns (fun q => q.pid = p.pid ∧ q.blockSize = p.blockSize) p.flushed := by
  unfold GcPage.flushed
  split
  · unfold GcPage.flushFreeList
    split
    · trivial
    · exact ⟨rfl, rfl⟩
  · exact ⟨rfl, rfl⟩

namespace Allocator

def Sized (s : Allocator) : Prop := ∀ p ∈ s.pages, p.Formed

variable {s : Allocator} {pid : Pid} {memory : Nat → Bool} {take first : GcPage → Option (GcPage × Run)}
  {R : Run → Prop}

theorem Sized.setPage (h : s.Sized) {q : GcPage} (hq : q.Formed) (id : Nat) : (s.setPage id q).Sized := by
  intro p hp
  rcases List.mem_or_eq_of_mem_set hp with hp | rfl
  · exact h p hp
  · exact hq

theorem Sized.addPage (h : s.Sized) {q : GcPage} (hq : q.Formed) (pid : Pid) : (s.addPage pid q).Sized := by
  intro p hp
  rcases List.mem_append.mp hp with hp | hp
  · exact h p hp
  · exact (List.mem_singleton.mp hp) ▸ hq

/-- The page that gives blocks: one of the pages `pid`, with its blocks. -/
structure Given (s : Allocator) (pid : Pid) (R : Run → Prop) (id : Nat) (p : GcPage) (run : Run) : Prop where
  sized : s.Sized
  inside : id < s.pages.length
  pid : p.pid = pid
  formed : p.Formed
  run : R run

def Gives (take : GcPage → Option (GcPage × Run)) (R : Run → Prop) : Prop :=
  ∀ q p run, take q = some (p, run) → p.pid = q.pid ∧ p.blockSize = q.blockSize ∧ R run

theorem returns_walkPages (htake : Gives take R) {ids : List Nat} (hs : s.Sized) (hids : ∀ id ∈ ids, s.Has pid id) :
    Returns (fun r => r.1.Sized ∧ ∀ id p run, r.2 = some (id, p, run) → Given r.1 pid R id p run)
      (walkPages take s ids) := by
  induction ids generalizing s with
  | nil => exact ⟨hs, fun id p run h => by cases h⟩
  | cons id ids ih =>
    obtain ⟨p, hp, hpid⟩ := hids id List.mem_cons_self
    have hformed := hs p (List.mem_of_getElem? hp)
    rw [walkPages, hp]
    refine Outcome.meets_bind p.flushed_form fun q hq => ?_
    obtain ⟨hqpid, hqsize⟩ := hq
    cases hgot : take q with
    | some got =>
      obtain ⟨hpid', hsize', hrun⟩ := htake q got.1 got.2 hgot
      refine ⟨hs, fun id' p' run' heq => ?_⟩
      cases heq
      exact ⟨hs, (List.getElem?_eq_some_iff.mp hp).1, hpid'.trans (hqpid.trans hpid),
        hformed.of_eq (hpid'.trans hqpid) (hsize'.trans hqsize), hrun⟩
    | none =>
      exact ih (hs.setPage (hformed.of_eq hqpid hqsize) id)
        fun id' hid' => (hids id' (List.mem_cons_of_mem id hid')).setPage hp hqpid

theorem returns_newPage :
    Returns (fun r => ∃ maxBlocks, r = (s.addPage pid (freshPage pid block maxBlocks varsize s.incremental
        (s.gcPages pid)), s.pages.length)) (gcAllocatorNewPage memory s pid block size varsize) := by
  unfold gcAllocatorNewPage
  simp only
  split
  · trivial
  · split
    · trivial
    · exact ⟨_, rfl⟩

theorem returns_findPage (pid : Pid) (hok : s.Ok) (hs : s.Sized) (htake : Gives take R)
    (hfirst : Gives first R) :
    Returns (fun r => Given r.1 pid R r.2.1 r.2.2.1 r.2.2.2)
      (findPage memory s pid take first (gcSizes pid.part) size varsize) := by
  refine Outcome.meets_bind (returns_walkPages htake hs (chain_has hok fun id hid => hok.frees pid id hid)) ?_
  rintro ⟨s₁, found⟩ ⟨hs₁, hgiven⟩
  cases found with
  | some got => exact hgiven got.1 got.2.1 got.2.2 rfl
  | none =>
    refine Outcome.meets_bind returns_newPage ?_
    rintro _ ⟨maxBlocks, rfl⟩
    dsimp only
    rw [s₁.getElem?_addPage, Option.bind_some]
    cases hgot : first (freshPage pid (gcSizes pid.part) maxBlocks varsize s₁.incremental (s₁.gcPages pid)) with
    | none => trivial
    | some got =>
      obtain ⟨hpid, hsize, hrun⟩ := hfirst _ got.1 got.2 hgot
      have hfresh : (freshPage pid (gcSizes pid.part) maxBlocks varsize s₁.incremental (s₁.gcPages pid)).Formed :=
        fun _ => rfl
      refine ⟨hs₁.addPage hfresh pid, ?_, hpid, hfresh.of_eq hpid hsize, hrun⟩
      rw [Allocator.addPage, List.length_append]
      exact Nat.lt_succ_self _

/-- The blocks of `h` have `size` bytes or more. -/
def Returned (s : Allocator) (h : Handed) (size : Nat) : Prop :=
  ∃ p, s.pages[h.page]? = some p ∧ size ≤ h.run.count * p.blockSize

theorem Given.returned {id : Nat} {p q : GcPage} {run : Run} (h : Given s pid R id p run)
    (hq : q.pid = p.pid ∧ q.blockSize = p.blockSize) (hpart : pid.part < gcLargePart)
    (hsize : size ≤ run.count * gcSizes pid.part) (frees : Pid → Option Nat) :
    Sized { s.setPage id q with gcFreePages := frees } ∧
      Returned { s.setPage id q with gcFreePages := frees } ⟨id, run⟩ size := by
  refine ⟨h.sized.setPage (h.formed.of_eq hq.1 hq.2) id, q, List.getElem?_set_self h.inside, ?_⟩
  rw [hq.2, h.formed (by rw [h.pid]; exact hpart), h.pid]
  exact hsize

theorem gives_takeFixed (want : Nat) : Gives (GcPage.takeFixed want) fun _ => True := by
  intro q p run h
  unfold GcPage.takeFixed at h
  split at h
  · cases h
    exact ⟨rfl, rfl, trivial⟩
  · cases h

theorem gives_takeFirst (n : Nat) : Gives (GcPage.takeFirst n) fun run => run.count = n := by
  intro q p run h
  unfold GcPage.takeFirst at h
  split at h
  · split at h
    · cases h
      exact ⟨rfl, rfl, rfl⟩
    · cases h
  · cases h

theorem gives_firstFixed (want : Nat) : Gives (firstFixed want) fun _ => True := by
  intro q p run h
  unfold firstFixed at h
  split at h
  · obtain ⟨hpid, hsize, -⟩ := gives_takeFirst _ q p run h
    exact ⟨hpid, hsize, trivial⟩
  · cases h

theorem gives_takeVar (n : Nat) : Gives (GcPage.takeVar n) fun run => run.count = n := by
  intro q p run h
  unfold GcPage.takeVar at h
  split at h
  · split at h
    · cases h
      exact ⟨rfl, rfl, rfl⟩
    · cases h
  · cases h

theorem returns_fixedRun (hok : s.Ok) (hs : s.Sized) (oc : Nat) (hpart : part < gcLargePart) (kind : MemKind)
    (want : Nat) :
    Returns (fun r => r.1.Sized ∧ Returned r.1 r.2 (gcSizes part)) (gcAllocFixedRun memory s oc part kind want) := by
  refine Outcome.meets_bind (returns_findPage ⟨oc, part, kind⟩ hok hs (gives_takeFixed want)
    (gives_firstFixed want)) ?_
  rintro ⟨s₁, id, p, run⟩ hgiven
  dsimp only
  split
  · trivial
  · rename_i hcount
    have hle : gcSizes part ≤ run.count * gcSizes part := Nat.le_mul_of_pos_left _ (by omega)
    exact hgiven.returned (q := p.handOut run) ⟨rfl, rfl⟩ hpart hle _

theorem returns_allocVar (hok : s.Ok) (hs : s.Sized) (oc : Nat) {k : Nat}
    (hpart : part = 5 ∨ part = 6 ∨ part = 7) (kind : MemKind) :
    Returns (fun r => r.1.Sized ∧ Returned r.1 r.2 (gcSizes part * k))
      (gcAllocVar memory s oc part (gcSizes part * k) kind) := by
  obtain ⟨hbits, hlow, hlarge, -⟩ := gcSizes_var hpart
  have hblocks : gcSizes part * k / 2 ^ gcSbits part = k := by
    rw [hbits]
    exact Nat.mul_div_cancel_left k (by omega)
  unfold gcAllocVar
  rw [hblocks]
  refine Outcome.meets_bind (returns_findPage ⟨oc, part, kind⟩ hok hs (gives_takeVar k) (gives_takeFirst k)) ?_
  rintro ⟨s₁, id, p, run⟩ hgiven
  have hrecord : Returns (fun q => q.pid = p.pid ∧ q.blockSize = p.blockSize) (p.recordVar run) := by
    unfold GcPage.recordVar
    split
    · trivial
    · split
      · exact ⟨rfl, rfl⟩
      · trivial
  refine Outcome.meets_bind hrecord fun q hq => ?_
  refine hgiven.returned hq hlarge ?_ _
  rw [show run.count = k from hgiven.run, Nat.mul_comm]

theorem Returned.mono {h : Handed} (hret : Returned s h sz) (hle : size ≤ sz) :
    Returned s h size := by
  obtain ⟨p, hp, hbytes⟩ := hret
  exact ⟨p, hp, Nat.le_trans hle hbytes⟩

theorem returns_alloc (memory : Nat → Bool) (hok : s.Ok) (hs : s.Sized) (size : Nat) (kind : MemKind) (oc : Nat) :
    Returns (fun r => r.1.Sized ∧ (0 < size → ∃ h, r.2 = some h ∧ Returned r.1 h size))
      (gcAllocatorAlloc memory s size kind oc) := by
  unfold gcAllocatorAlloc
  split
  · exact ⟨hs, fun hpos => by omega⟩
  · rename_i hsize
    have hle : size ≤ query size gcAlign := (query_spec _ (by decide)).1
    have hdvd : gcAlign ∣ query size gcAlign := (query_spec _ (by decide)).2.2
    generalize query size gcAlign = sz at hle hdvd
    dsimp only
    split
    · have hle' : sz ≤ query sz gcPageSize := (query_spec _ (by decide)).1
      refine Outcome.meets_bind returns_newPage ?_
      rintro _ ⟨maxBlocks, rfl⟩
      dsimp only
      rw [s.getElem?_addPage]
      have hfresh : (freshPage ⟨oc, gcLargePart, kind⟩ (query sz gcPageSize) maxBlocks false s.incremental
          (s.gcPages ⟨oc, gcLargePart, kind⟩)).Formed := fun hlt => absurd hlt (Nat.lt_irrefl _)
      have hinside := (List.getElem?_eq_some_iff.mp (s.getElem?_addPage ⟨oc, gcLargePart, kind⟩ (freshPage
        ⟨oc, gcLargePart, kind⟩ (query sz gcPageSize) maxBlocks false s.incremental
        (s.gcPages ⟨oc, gcLargePart, kind⟩)))).1
      refine ⟨(hs.addPage hfresh _).setPage (hfresh.of_eq (q := GcPage.handOut _ _) rfl rfl) _, fun _ =>
        ⟨_, rfl, _, List.getElem?_set_self hinside, ?_⟩⟩
      show size ≤ 1 * query sz gcPageSize
      omega
    · rename_i hlarge
      split
      · rename_i hfixed
        have hforty : gcSizes (gcFixedParts - 1) = 40 := rfl
        have hblock : sz ≤ gcSizes (sz / gcAlign - 1) ∧ sz / gcAlign - 1 < gcLargePart := by
          obtain ⟨k, rfl⟩ := hdvd
          have hk : 1 ≤ k ∧ k ≤ 5 := by
            simp only [gcAlign] at hfixed hle
            omega
          obtain ⟨hlow, hhigh⟩ := hk
          interval_cases k <;> decide
        refine Outcome.meets_bind (returns_fixedRun hok hs oc hblock.2 kind 1) fun r hr => ?_
        exact ⟨hr.1, fun _ => ⟨r.2, rfl, hr.2.mono (Nat.le_trans hle hblock.1)⟩⟩
      · split
        · rename_i part hfind
          obtain ⟨hpart, ⟨k, hk⟩, hge, -, -⟩ := find_part (Nat.lt_of_not_le hlarge) hfind
          rw [hk] at hge ⊢
          refine Outcome.meets_bind (returns_allocVar hok hs oc hpart kind) fun r hr => ?_
          exact ⟨hr.1, fun _ => ⟨r.2, rfl, hr.2.mono (by omega)⟩⟩
        · trivial

theorem returns_changePage (hs : s.Sized) (id : Nat) {f : GcPage → Except AllocError GcPage}
    (hf : ∀ p, Returns (fun q => q.pid = p.pid ∧ q.blockSize = p.blockSize) (f p)) :
    Returns Sized (s.changePage id f) := by
  unfold Allocator.changePage
  cases hp : s.pages[id]? with
  | none => exact hs
  | some p =>
    refine Outcome.meets_bind (hf p) fun q hq => ?_
    exact hs.setPage ((hs p (List.mem_of_getElem? hp)).of_eq hq.1 hq.2) id

theorem Sized.returns_step (hok : s.Ok) (hs : s.Sized) (e : Event) (memory : Nat → Bool) :
    Returns (fun r => r.1.Sized) (s.step memory e) := by
  cases e with
  | alloc size kind oc => exact (returns_alloc _ hok hs size kind oc).imp fun r hr => hr.1
  | reserve oc part kind =>
    exact Outcome.meets_bind (returns_fixedRun hok hs oc (Nat.lt_trans part.isLt (by decide)) kind _) fun r hr => hr.1
  | mark id bid =>
    refine Outcome.meets_bind (returns_changePage hs id fun p => ?_) fun _ h => h
    unfold markBlock
    split
    · exact ⟨rfl, rfl⟩
    · exact ⟨rfl, rfl⟩
  | beforeMark =>
    intro p hp
    obtain ⟨q, hq, rfl⟩ := List.mem_map.mp hp
    exact (hs q hq).of_eq rfl rfl
  | rebuild id => exact Outcome.meets_bind (returns_changePage hs id GcPage.flushed_form) fun _ h => h
  | prepare id =>
    refine Outcome.meets_bind (returns_changePage hs id fun p => ?_) fun _ h => h
    exact Outcome.meets_bind p.flushed_form fun q hq => hq
  | publish id =>
    refine Outcome.meets_bind (returns_changePage hs id fun p => ?_) fun _ h => h
    unfold gcIncPublishMarks
    split
    · exact ⟨rfl, rfl⟩
    · exact ⟨rfl, rfl⟩
  | cycle active => exact hs

theorem returns_run (hok : s.Ok) (hs : s.Sized) (events : List (Event × (Nat → Bool))) :
    Returns (fun s => s.Ok ∧ s.Sized) (s.run events) := by
  induction events generalizing s with
  | nil => exact ⟨hok, hs⟩
  | cons e events ih =>
    have hsized := hs.returns_step hok e.1 e.2
    have hnext := hok.meets_step e.2 e.1
    unfold Allocator.run
    cases hstep : s.step e.2 e.1 with
    | error _ => trivial
    | ok r =>
      rw [hstep] at hsized hnext
      exact ih hnext.1 hsized

theorem ok_sized_of_run {events : List (Event × (Nat → Bool))} (hrun : start.run events = .ok s) :
    s.Ok ∧ s.Sized := by
  have hstart : start.Sized := fun p hp => absurd hp List.not_mem_nil
  have hreturns := returns_run ok_start hstart events
  rw [hrun] at hreturns
  exact hreturns

end Allocator

/-- What is right about an allocation of a size. None of the integers computed for it wraps around, the plan is right,
and after every run of the allocator it returns a block as large as the request, unless memory has run out. -/
structure SizesRight (size : Nat) (kind : MemKind) : Prop where
  arithmetic : ∀ numPages, ∃ plan, planAlloc size kind numPages = pure plan ∧ plan.Right size
  blocks : ∀ events s, start.run events = .ok s → ∀ memory oc,
    Meets (fun r => ∃ h, r.2 = some h ∧ r.1.Returned h size) (gcAllocatorAlloc memory s size kind oc)

theorem allocation_sizes_iff {size : Nat} (hpos : 0 < size) (hint : size < 2 ^ 31) (kind : MemKind) :
    SizesRight size kind ↔ size + 65536 ≤ 2 ^ 31 := by
  refine ⟨fun h => ?_, fun hmax => ⟨planAlloc_ok hpos hmax kind, fun events s hrun memory oc => ?_⟩⟩
  · by_contra hlarge
    obtain ⟨plan, hplan, -⟩ := h.arithmetic 0
    have hwraps := planAlloc_wraps size hint (Nat.lt_of_not_le hlarge) kind 0
    rw [hplan] at hwraps
    cases hwraps
  · obtain ⟨hok, hsized⟩ := ok_sized_of_run hrun
    have hmeets := meets_alloc memory hok size kind oc
    have hreturns := returns_alloc memory hok hsized size kind oc
    cases hresult : gcAllocatorAlloc memory s size kind oc with
    | error e =>
      rw [hresult] at hmeets
      exact hmeets
    | ok r =>
      rw [hresult] at hreturns
      exact hreturns.2 hpos

theorem allocation_sizes_raw : SizesRight 1000000 .raw :=
  (allocation_sizes_iff (by decide) (by decide) .raw).mpr (by decide)

/-- The largest request is rounded up past the largest `int`. -/
theorem largest_size_wraps : ¬∀ size kind, 0 < size → size < 2 ^ 31 → SizesRight size kind := by
  intro hclaim
  obtain ⟨plan, hplan, -⟩ := (hclaim (2 ^ 31 - 1) .raw (by decide) (by decide)).arithmetic 0
  have hwraps := planAlloc_wraps (2 ^ 31 - 1) (by decide) (by decide) .raw 0
  rw [hplan] at hwraps
  cases hwraps

end HashLink.Gc
