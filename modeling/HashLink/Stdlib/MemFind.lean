import HashLink.Lib.WindowSearch
import Mathlib.Data.List.Basic

/-! `memfind_rb` of `bytes.c`: the search for a block of bytes in another one. The bytes in memory from the block and
from the pattern on are functions of the distance, so a read past their ends is a read of some byte, and the reads are
listed. -/

namespace HashLink.MemFind

open WindowSearch

inductive Read where
  | block (i : Nat)
  | pattern (i : Nat)
  deriving DecidableEq, Repr

/-- The result of a search and what is read for it. -/
structure Search where
  found : Option Nat
  reads : List Read
  deriving DecidableEq, Repr

variable (block pattern : Nat → UInt8) (blockSize patternSize : Nat)

/-- The second loop over the shift table, for the bytes of the pattern from `i` on. -/
def fillShift : Nat → Nat → List Nat → List Nat
  | 0, _, shift => shift
  | k + 1, i, shift => fillShift k (i + 1) (shift.set (pattern i).toNat (patternSize - i))

def shiftTable : List Nat := fillShift pattern patternSize patternSize 0 (List.replicate 256 (patternSize + 1))

/-- The inner loop at the window `w`, after `k` bytes that agree. -/
def comparePattern (w : Nat) : Nat → Nat → Bool × List Read
  | 0, _ => (false, [])
  | fuel + 1, k =>
    let reads := [.block (w + k), .pattern k]
    if block (w + k) = pattern k then
      if patternSize ≤ k + 1 then (true, reads)
      else
        let rest := comparePattern w fuel (k + 1)
        (rest.1, reads ++ rest.2)
    else (false, reads)

/-- The outer loop. There is no result when the fuel does not suffice. -/
def searchFrom (shift : List Nat) : Nat → Nat → Option Search
  | 0, _ => none
  | fuel + 1, w =>
    if w < blockSize - patternSize + 1 then
      let compared := comparePattern block pattern patternSize w patternSize 0
      if compared.1 then some ⟨some w, compared.2⟩
      else (searchFrom shift fuel (w + shift.getD (block (w + patternSize)).toNat 0)).map fun rest =>
        ⟨rest.found, compared.2 ++ .block (w + patternSize) :: rest.reads⟩
    else some ⟨none, []⟩

/-- `memfind_rb`, of pointers that are not null and without a table from before. -/
def memfindRb : Option Search :=
  if blockSize < patternSize then some ⟨none, []⟩
  else if patternSize = 0 then some ⟨some 0, []⟩
  else
    let shift := shiftTable pattern patternSize
    (searchFrom block pattern blockSize patternSize shift (blockSize - patternSize + 2) 0).map fun r =>
      ⟨r.found, (List.range patternSize).map .pattern ++ r.reads⟩

/-- After the bytes of the pattern before `i`, the distance of a byte is that of its last place. -/
def Filled (i : Nat) (shift : List Nat) : Prop :=
  ∀ c : UInt8, (shift.getD c.toNat 0 = patternSize + 1 ∧ ∀ j < i, pattern j ≠ c) ∨
    ∃ j < i, shift.getD c.toNat 0 = patternSize - j ∧ pattern j = c ∧ ∀ j' < i, j < j' → pattern j' ≠ c

variable {block pattern blockSize patternSize}

theorem Filled.set {i : Nat} {shift : List Nat} (h : Filled pattern patternSize i shift)
    (hlength : shift.length = 256) :
    Filled pattern patternSize (i + 1) (shift.set (pattern i).toNat (patternSize - i)) := by
  intro c
  by_cases hc : pattern i = c
  · refine Or.inr ⟨i, by omega, ?_, hc, fun j' hj' hlt => by omega⟩
    have hbound : c.toNat < 256 := c.toNat_lt
    rw [hc, List.getD_eq_getElem?_getD, List.getElem?_set_self (by omega)]
    rfl
  · have hkeep : (shift.set (pattern i).toNat (patternSize - i)).getD c.toNat 0 = shift.getD c.toNat 0 := by
      have hne : (pattern i).toNat ≠ c.toNat := fun heq => hc (UInt8.toNat_inj.1 heq)
      rw [List.getD_eq_getElem?_getD, List.getElem?_set_ne hne, List.getD_eq_getElem?_getD]
    have hlast : ∀ j, (j < i → pattern j ≠ c) → j < i + 1 → pattern j ≠ c := by
      intro j hbefore hj
      rcases Nat.lt_succ_iff_lt_or_eq.1 hj with hlt | rfl
      · exact hbefore hlt
      · exact hc
    rw [hkeep]
    refine (h c).imp (fun ⟨hshift, hnone⟩ => ⟨hshift, fun j => hlast j (hnone j)⟩) ?_
    rintro ⟨j, hj, hshift, hpattern, hafter⟩
    exact ⟨j, by omega, hshift, hpattern, fun j' hj' hlt => hlast j' (fun h' => hafter j' h' hlt) hj'⟩

theorem filled_fillShift {k i : Nat} {shift : List Nat} (h : Filled pattern patternSize i shift)
    (hlength : shift.length = 256) : Filled pattern patternSize (i + k) (fillShift pattern patternSize k i shift) := by
  induction k generalizing i shift with
  | zero => exact h
  | succ k ih =>
    rw [fillShift, Nat.add_comm k, ← Nat.add_assoc]
    exact ih (h.set hlength) (by rw [List.length_set, hlength])

variable (pattern patternSize) in
theorem filled_shiftTable : Filled pattern patternSize patternSize (shiftTable pattern patternSize) := by
  have hempty : Filled pattern patternSize 0 (List.replicate 256 (patternSize + 1)) := by
    intro c
    have hbound : c.toNat < 256 := c.toNat_lt
    refine Or.inl ⟨?_, fun j hj => by omega⟩
    rw [List.getD_eq_getElem?_getD, List.getElem?_replicate, if_pos hbound]
    rfl
  have hall : Filled pattern patternSize (0 + patternSize) (shiftTable pattern patternSize) :=
    filled_fillShift hempty List.length_replicate
  rwa [Nat.zero_add] at hall

variable (block pattern patternSize) in
theorem next_shiftTable (w : Nat) : Next block pattern patternSize w
    (w + (shiftTable pattern patternSize).getD (block (w + patternSize)).toNat 0) := by
  rcases filled_shiftTable pattern patternSize (block (w + patternSize)) with
    ⟨hshift, hnone⟩ | ⟨j, hj, hshift, hpattern, hafter⟩
  · rw [hshift]
    exact ⟨by omega, by omega, by omega, fun v hlow hhigh => hnone _ (by omega)⟩
  · rw [hshift]
    refine ⟨by omega, by omega, fun _ => ?_, fun v hlow hhigh => hafter _ (by omega) (by omega)⟩
    rw [show w + patternSize - (w + (patternSize - j)) = j by omega, hpattern]

/-- The position of the first occurrence, or nothing when there is none. -/
def Correct (block pattern : Nat → UInt8) (blockSize patternSize : Nat) : Option Nat → Prop
  | some w => w + patternSize ≤ blockSize ∧ Occurs block pattern patternSize w ∧
      ∀ v < w, ¬Occurs block pattern patternSize v
  | none => ∀ v, v + patternSize ≤ blockSize → ¬Occurs block pattern patternSize v

def Read.Inside (blockSize patternSize : Nat) : Read → Prop
  | .block i => i < blockSize
  | .pattern i => i < patternSize

variable (block pattern) in
theorem comparePattern_spec (w : Nat) (hfits : w + patternSize ≤ blockSize) {fuel k : Nat} (hk : k < patternSize)
    (hfuel : patternSize ≤ k + fuel) :
    ((comparePattern block pattern patternSize w fuel k).1 ↔ ∀ j, k ≤ j → j < patternSize → block (w + j) = pattern j) ∧
      ∀ r ∈ (comparePattern block pattern patternSize w fuel k).2, r.Inside blockSize patternSize := by
  induction fuel generalizing k with
  | zero => omega
  | succ fuel ih =>
    have hreads : ∀ r ∈ [Read.block (w + k), .pattern k], r.Inside blockSize patternSize := by
      intro r hr
      rcases List.mem_pair.1 hr with rfl | rfl
      · exact Nat.lt_of_lt_of_le (Nat.add_lt_add_left hk w) hfits
      · exact hk
    rw [comparePattern]
    dsimp only
    split
    · next hagree =>
      split
      · next hlast =>
        refine ⟨iff_of_true rfl fun j hlow hhigh => ?_, hreads⟩
        obtain rfl : j = k := by omega
        exact hagree
      · obtain ⟨hrest, hinside⟩ := ih (show k + 1 < patternSize by omega) (by omega)
        refine ⟨hrest.trans ⟨fun h j hlow hhigh => ?_, fun h j hlow hhigh => h j (by omega) hhigh⟩, fun r hr => ?_⟩
        · rcases Nat.eq_or_lt_of_le hlow with rfl | hlt
          · exact hagree
          · exact h j hlt hhigh
        · rcases List.mem_append.1 hr with hr | hr
          · exact hreads r hr
          · exact hinside r hr
    · next hdiffers =>
      exact ⟨iff_of_false nofun fun h => hdiffers (h k (Nat.le_refl k) hk), hreads⟩

variable (block pattern) in
/-- From a window before which there is no match, the first match is found. A byte that is not in the block is read
when the last window is tried and does not match. -/
theorem searchFrom_spec (hpos : 0 < patternSize) (hle : patternSize ≤ blockSize) {fuel w : Nat}
    (hfuel : blockSize - patternSize + 1 - w < fuel) (hbefore : ∀ v < w, ¬Occurs block pattern patternSize v) :
    ∃ r, searchFrom block pattern blockSize patternSize (shiftTable pattern patternSize) fuel w = some r ∧
      Correct block pattern blockSize patternSize r.found ∧
      ((∀ x ∈ r.reads, x.Inside blockSize patternSize) ↔
        (Tried block pattern patternSize blockSize w (blockSize - patternSize) →
          Occurs block pattern patternSize (blockSize - patternSize))) := by
  induction fuel generalizing w with
  | zero => omega
  | succ fuel ih =>
    rw [searchFrom]
    by_cases hlimit : w < blockSize - patternSize + 1
    · obtain ⟨hcompare, hinside⟩ :=
        comparePattern_spec block pattern w (show w + patternSize ≤ blockSize by omega) hpos
        (Nat.le_add_left patternSize 0)
      have hoccurs :
          (comparePattern block pattern patternSize w patternSize 0).1 ↔ Occurs block pattern patternSize w :=
        hcompare.trans ⟨fun h k hk => h k (Nat.zero_le k) hk, fun h k _ hk => h k hk⟩
      rw [if_pos hlimit]
      dsimp only
      by_cases hw : Occurs block pattern patternSize w
      · rw [if_pos (hoccurs.2 hw)]
        refine ⟨_, rfl, ⟨by omega, hw, hbefore⟩, iff_of_true hinside fun htried => ?_⟩
        rwa [← htried.eq_of_occurs hw]
      · rw [if_neg (mt hoccurs.1 hw)]
        have hnext := next_shiftTable block pattern patternSize w
        have hlt := hnext.lt
        have hbefore' : ∀ v < w + (shiftTable pattern patternSize).getD (block (w + patternSize)).toNat 0,
            ¬Occurs block pattern patternSize v := by
          intro v hv
          rcases Nat.lt_trichotomy v w with hless | rfl | hgreater
          · exact hbefore v hless
          · exact hw
          · exact hnext.not_occurs hgreater hv
        obtain ⟨r, hr, hcorrect, hreads⟩ := ih (by omega) hbefore'
        refine ⟨_, congrArg (Option.map _) hr, hcorrect, ?_⟩
        have hsplit : (∀ x ∈ (comparePattern block pattern patternSize w patternSize 0).2 ++
            .block (w + patternSize) :: r.reads, x.Inside blockSize patternSize) ↔
            w + patternSize < blockSize ∧ ∀ x ∈ r.reads, x.Inside blockSize patternSize := by
          rw [List.forall_mem_append, List.forall_mem_cons]
          exact and_iff_right hinside
        rw [hsplit, hreads]
        rcases Nat.lt_or_ge (w + patternSize) blockSize with hinner | hedge
        · rw [and_iff_right hinner, tried_iff_of_next (by omega) hw hnext (by omega)]
        · -- the byte after the last window is not in the block
          obtain rfl : w = blockSize - patternSize := by omega
          exact iff_of_false (fun h => by omega) fun h => hw (h (.here _))
    · rw [if_neg hlimit]
      refine ⟨_, rfl, fun v hv => hbefore v (by omega), iff_of_true (by simp) fun htried => ?_⟩
      have hw := htried.le
      omega

def LastMatches (block pattern : Nat → UInt8) (blockSize patternSize : Nat) : Prop :=
  0 < patternSize → patternSize ≤ blockSize → Tried block pattern patternSize blockSize 0 (blockSize - patternSize) →
    Occurs block pattern patternSize (blockSize - patternSize)

variable (block pattern blockSize patternSize) in
theorem memfindRb_spec : ∃ r, memfindRb block pattern blockSize patternSize = some r ∧
    Correct block pattern blockSize patternSize r.found ∧
      ((∀ x ∈ r.reads, x.Inside blockSize patternSize) ↔ LastMatches block pattern blockSize patternSize) := by
  rw [memfindRb]
  by_cases hlt : blockSize < patternSize
  · rw [if_pos hlt]
    refine ⟨_, rfl, fun v hv => ?_, iff_of_true (by simp) fun _ hle => ?_⟩ <;> omega
  by_cases hempty : patternSize = 0
  · rw [if_neg hlt, if_pos hempty]
    refine ⟨_, rfl, ⟨by omega, fun k hk => ?_, fun v hv => ?_⟩, iff_of_true (by simp) fun hpos => ?_⟩ <;> omega
  have hpos : 0 < patternSize := Nat.pos_of_ne_zero hempty
  have hle : patternSize ≤ blockSize := Nat.le_of_not_lt hlt
  obtain ⟨r, hr, hcorrect, hreads⟩ := searchFrom_spec block pattern hpos hle
    (show blockSize - patternSize + 1 - 0 < blockSize - patternSize + 2 by omega) nofun
  have htable : ∀ x ∈ (List.range patternSize).map Read.pattern, x.Inside blockSize patternSize := by
    intro x hx
    obtain ⟨i, hi, rfl⟩ := List.mem_map.1 hx
    exact List.mem_range.1 hi
  rw [if_neg hlt, if_neg hempty]
  dsimp only
  rw [hr, Option.map_some]
  refine ⟨_, rfl, hcorrect, ?_⟩
  rw [List.forall_mem_append, and_iff_right htable, hreads]
  exact ⟨fun h _ _ => h, fun h => h hpos hle⟩

/-- The search gives the first occurrence, and reads the block and the pattern only. -/
def Finds (block pattern : Nat → UInt8) (blockSize patternSize : Nat) : Prop :=
  ∃ r, memfindRb block pattern blockSize patternSize = some r ∧
    Correct block pattern blockSize patternSize r.found ∧ ∀ x ∈ r.reads, x.Inside blockSize patternSize

/-- The search stays in the block when the last window matches or is not tried. -/
theorem finds_iff (block pattern : Nat → UInt8) (blockSize patternSize : Nat) :
    Finds block pattern blockSize patternSize ↔ LastMatches block pattern blockSize patternSize := by
  obtain ⟨r, hr, hcorrect, hreads⟩ := memfindRb_spec block pattern blockSize patternSize
  rw [Finds, hr]
  constructor
  · rintro ⟨_, ⟨⟩, -, hinside⟩
    exact hreads.1 hinside
  · intro h
    exact ⟨r, rfl, hcorrect, hreads.2 h⟩

def memory (bytes : List UInt8) (i : Nat) : UInt8 := bytes.getD i 0

/-- The search for `2` in `1` reads the byte after the block. -/
theorem not_finds_absent : ¬Finds (memory [1]) (memory [2]) 1 1 := by
  rintro ⟨r, hr, -, hinside⟩
  have hread : memfindRb (memory [1]) (memory [2]) 1 1 =
      some ⟨none, [.pattern 0, .block 0, .pattern 0, .block 1]⟩ := by decide +kernel
  cases hr.symm.trans hread
  exact absurd (hinside (.block 1) (by simp)) (Nat.lt_irrefl 1)

/-- `hl_bytes_find`, from `pos` on. -/
def hlBytesFind (where_ which : Nat → UInt8) (pos len wpos wlen : Nat) : Option Int :=
  (memfindRb (fun i => where_ (pos + i)) (fun i => which (wpos + i)) len wlen).map fun r =>
    match r.found with
    | some w => (pos + w : Nat)
    | none => -1

theorem hlBytesFind_spec (where_ which : Nat → UInt8) (pos len wpos wlen : Nat) :
    ∃ found, Correct (fun i => where_ (pos + i)) (fun i => which (wpos + i)) len wlen found ∧
      hlBytesFind where_ which pos len wpos wlen = some (found.elim (-1 : Int) fun w => (pos + w : Nat)) := by
  obtain ⟨r, hr, hcorrect, -⟩ := memfindRb_spec (fun i => where_ (pos + i)) (fun i => which (wpos + i)) len wlen
  refine ⟨r.found, hcorrect, ?_⟩
  rw [hlBytesFind, hr, Option.map_some]
  cases r.found <;> rfl

end HashLink.MemFind
