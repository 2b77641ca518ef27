import HashLink.Lib.OpenAddressing
import Mathlib.Data.Nat.Find

/-!
The index that `hash_type_prefix` finds names with: a table with open addressing from the content of a string to the
first index that has it. It answers what a scan of the string table does, for a table of up to 2^29 strings; the
computation of its size overflows for more.
-/

namespace HashLink.StringIndex

open OpenAddressing

/-- The units of a string, up to its terminator: `ustrlen` is the length. -/
abbrev UString := List UInt16

def hashBytes (hash : UInt32) (p : List UInt8) (length : Int) : UInt32 :=
  (p.take length.toNat).foldl (fun hash c => (hash ^^^ c.toUInt32) * 16777619) hash

/-- `hash_ustring`. The number of bytes is an `int`. -/
def hashUstring (s : UString) : UInt32 :=
  hashBytes 2166136261 (s.flatMap fun u : UInt16 => [u.toUInt8, (u >>> 8).toUInt8]) (Int.bmod (s.length * 2) (2 ^ 32))

/-- `type_string_index`. The slots are missing when there was no memory for them; a slot is empty or has an index. -/
structure TypeStringIndex where
  slots : Option (List (Option Nat))
  lengths : List Nat
  mask : Nat

/-- `while( size < code->nstrings * 2 ) size<<=1`, in `int`s: there is no result when one overflows. -/
def doubled (need : Nat) : Nat → Nat → Option Nat
  | 0, _ => none
  | fuel + 1, size =>
    if size < need then
      if size * 2 < 2 ^ 31 then doubled need fuel (size * 2) else none
    else some size

def indexSize (nstrings : Nat) : Option Nat :=
  if nstrings * 2 < 2 ^ 31 then doubled (nstrings * 2) 32 16 else none

def sameString (strings : List UString) (lengths : List Nat) (s : UString) (i : Nat) : Bool :=
  lengths.getD i 0 = s.length && strings.getD i [] = s

/-- One turn of the loop of `type_string_index_build`. -/
def addString (fuel : Nat) (strings : List UString) (mask : Nat) (index : List (Option Nat) × List Nat) (i : Nat) :
    Option (List (Option Nat) × List Nat) := do
  let s := strings.getD i []
  let lengths := index.2 ++ [s.length]
  let slot ← probe (sameString strings lengths s) (fun slot => (slot + 1) &&& mask) index.1 fuel
    ((hashUstring s).toNat &&& mask)
  return (if (cell index.1 slot).isNone then index.1.set slot (some i) else index.1, lengths)

/-- `type_string_index_build`, when the two calls of `malloc` succeed or fail as given. A loop that goes on for more
than `fuel` turns has no result. -/
def typeStringIndexBuild (fuel : Nat) (mallocSlots mallocLengths : Bool) (strings : List UString) :
    Option TypeStringIndex := do
  let size ← indexSize strings.length
  if !mallocSlots || !mallocLengths then return ⟨none, [], size - 1⟩
  else
    let (slots, lengths) ← (List.range strings.length).foldlM (addString fuel strings (size - 1))
      (List.replicate size none, [])
    return ⟨some slots, lengths, size - 1⟩

/-- The scan of `hash_type_string_index`: the first index with the content of the name, or -1. -/
def scan (strings : List UString) (name : UString) : Int :=
  match strings.findIdx? fun candidate => candidate.length = name.length && candidate = name with
  | some i => i
  | none => -1

def hashTypeStringIndex (fuel : Nat) (strings : List UString) (index : TypeStringIndex) (name : UString) :
    Option Int :=
  match index.slots with
  | some slots => do
      let slot ← probe (sameString strings index.lengths name) (fun slot => (slot + 1) &&& index.mask) slots fuel
        ((hashUstring name).toNat &&& index.mask)
      return match cell slots slot with
      | some i => i
      | none => -1
  | none => some (scan strings name)

/-- For every name the index answers what the scan does, and the loops end. -/
def Equivalent (strings : List UString) : Prop :=
  ∀ mallocSlots mallocLengths, ∃ n, ∀ fuel ≥ n, ∃ index,
    typeStringIndexBuild fuel mallocSlots mallocLengths strings = some index ∧
      ∀ name, hashTypeStringIndex fuel strings index name = some (scan strings name)

theorem doubled_spec {need : Nat} (hneed : need ≤ 2 ^ 30) :
    ∀ (k fuel : Nat), k ≤ 30 → 30 < fuel + k →
      ∃ m, doubled need fuel (2 ^ k) = some (2 ^ m) ∧ need ≤ 2 ^ m ∧ k ≤ m := by
  intro k fuel hk hfuel
  induction fuel generalizing k with
  | zero => omega
  | succ fuel ih =>
    rw [doubled]
    split
    · rename_i hlt
      have hlt30 : k < 30 := (Nat.pow_lt_pow_iff_right (by decide : 1 < 2)).mp (Nat.lt_of_lt_of_le hlt hneed)
      have hbound : 2 ^ k * 2 < 2 ^ 31 := by
        have hpow := Nat.pow_le_pow_right (by decide : 0 < 2) hlt30
        rw [Nat.pow_succ] at hpow
        omega
      rw [if_pos hbound, ← Nat.pow_succ]
      obtain ⟨m, hm, hle, hkm⟩ := ih (k + 1) hlt30 (by omega)
      exact ⟨m, hm, hle, by omega⟩
    · rename_i hge
      exact ⟨k, rfl, Nat.le_of_not_lt hge, Nat.le_refl k⟩

theorem doubled_none {need : Nat} (hneed : 2 ^ 30 < need) :
    ∀ fuel k, k ≤ 30 → doubled need fuel (2 ^ k) = none := by
  intro fuel
  induction fuel with
  | zero => exact fun _ _ => rfl
  | succ fuel ih =>
    intro k hk
    have hpow := Nat.pow_le_pow_right (by decide : 0 < 2) hk
    rw [doubled, if_pos (by omega), ← Nat.pow_succ]
    split
    · rename_i hlt
      exact ih _ (Nat.le_of_lt_succ ((Nat.pow_lt_pow_iff_right (by decide : 1 < 2)).mp hlt))
    · rfl

theorem indexSize_spec {n : Nat} (hn : n ≤ 2 ^ 29) : ∃ m, indexSize n = some (2 ^ m) ∧ n < 2 ^ m := by
  have hneed : n * 2 ≤ 2 ^ 30 := by omega
  obtain ⟨m, hm, hle, hk⟩ := doubled_spec hneed 4 32 (by decide) (by decide)
  have hpow := Nat.pow_le_pow_right (by decide : 0 < 2) hk
  refine ⟨m, ?_, by omega⟩
  rw [indexSize, if_pos (by omega)]
  exact hm

theorem indexSize_none {n : Nat} (hn : 2 ^ 29 < n) : indexSize n = none := by
  rw [indexSize]
  split
  · exact doubled_none (by omega) 32 4 (by decide)
  · rfl

section Index

variable {strings : List UString} {m fuel n : Nat} {slots : List (Option Nat)} {lengths : List Nat} {name : UString}

def home (mask : Nat) (s : UString) : Nat := (hashUstring s).toNat &&& mask

theorem mask_lt (m x : Nat) : x &&& (2 ^ m - 1) < 2 ^ m := by
  rw [Nat.and_two_pow_sub_one_eq_mod]
  exact Nat.mod_lt _ (Nat.two_pow_pos m)

/-- The index after the strings below `n`: each content is there once, for the first string that has it. -/
structure Indexed (strings : List UString) (m n : Nat) (slots : List (Option Nat)) (lengths : List Nat) : Prop where
  size : slots.length = 2 ^ m
  valid : Valid (fun i => strings.getD i []) (home (2 ^ m - 1)) slots
  first : ∀ i, Has slots i ↔ i < n ∧ ∀ j < i, strings.getD j [] ≠ strings.getD i []
  load : filled slots ≤ n
  lengths : lengths = (strings.take n).map List.length

theorem next_eq (hsize : slots.length = 2 ^ m) :
    ∀ i < slots.length, (fun slot => (slot + 1) &&& (2 ^ m - 1)) i = (i + 1) % slots.length := by
  intro i _
  rw [hsize]
  exact Nat.and_two_pow_sub_one_eq_mod _ _

theorem indexed_zero (strings : List UString) (m : Nat) :
    Indexed strings m 0 (List.replicate (2 ^ m) none) [] where
  size := List.length_replicate
  valid := valid_empty _ _ _
  first i := by
    refine ⟨fun ⟨c, hc⟩ => ?_, fun h => absurd h.1 (Nat.not_lt_zero i)⟩
    rw [cell_replicate] at hc
    cases hc
  load := Nat.le_of_eq (filled_replicate _)
  lengths := rfl

section Step

variable (h : Indexed strings m n slots lengths)
include h

theorem Indexed.sameString_iff (hn : n ≤ strings.length) (rest : List Nat) {i : Nat} (hi : Has slots i) :
    sameString strings (lengths ++ rest) name i = true ↔ strings.getD i [] = name := by
  have hin := ((h.first i).mp hi).1
  have hlength : (lengths ++ rest).getD i 0 = (strings.getD i []).length := by
    have hlt : i < strings.length := Nat.lt_of_lt_of_le hin hn
    have hlt' : i < lengths.length := by
      rw [h.lengths, List.length_map, List.length_take]
      omega
    rw [List.getD_eq_getElem?_getD, List.getElem?_append_left hlt', h.lengths, List.getElem?_map,
      List.getElem?_take_of_lt hin, List.getD_eq_getElem?_getD, List.getElem?_eq_getElem hlt]
    rfl
  rw [sameString, Bool.and_eq_true, decide_eq_true_iff, decide_eq_true_iff, hlength]
  exact ⟨fun h => h.2, fun h => ⟨congrArg List.length h, h⟩⟩

theorem Indexed.exists_first {i : Nat} (hi : i < n) : ∃ k, Has slots k ∧ strings.getD k [] = strings.getD i [] := by
  have hex : ∃ k, strings.getD k [] = strings.getD i [] := ⟨i, rfl⟩
  have hle : Nat.find hex ≤ i := Nat.find_min' hex rfl
  refine ⟨Nat.find hex, (h.first _).mpr ⟨Nat.lt_of_le_of_lt hle hi, fun j hj hsame => ?_⟩, Nat.find_spec hex⟩
  exact Nat.find_min hex hj (hsame.trans (Nat.find_spec hex))

theorem Indexed.walk (hn : n ≤ strings.length) (hroom : n < 2 ^ m) (name : UString) (rest : List Nat) :
    ∃ c, (∀ fuel ≥ 2 ^ m, probe (sameString strings (lengths ++ rest) name) (fun slot => (slot + 1) &&& (2 ^ m - 1))
        slots fuel (home (2 ^ m - 1) name) = some c) ∧
      ((∃ i, cell slots c = some i ∧ strings.getD i [] = name) ∨
        (cell slots c = none ∧ ∀ i, Has slots i → strings.getD i [] ≠ name)) ∧
      c < slots.length ∧ ∃ d, c = (home (2 ^ m - 1) name + d) % slots.length ∧
        ∀ j < d, ∃ b, cell slots ((home (2 ^ m - 1) name + j) % slots.length) = some b := by
  have hnext := next_eq h.size
  have hhome : home (2 ^ m - 1) name < slots.length := by
    rw [h.size]
    exact mask_lt m _
  obtain ⟨c, hc⟩ : ∃ c, ∀ fuel ≥ slots.length, probe (sameString strings (lengths ++ rest) name)
      (fun slot => (slot + 1) &&& (2 ^ m - 1)) slots fuel (home (2 ^ m - 1) name) = some c :=
    probe_ends hnext hhome (Nat.lt_of_le_of_lt h.load (h.size ▸ hroom))
  have hprobe := hc slots.length (Nat.le_refl _)
  exact ⟨c, h.size ▸ hc, h.valid.lookup hnext hhome (fun i hi => h.sameString_iff hn rest hi) hprobe,
    walk_of_probe hnext hhome hprobe⟩

theorem Indexed.addString (hn : n < strings.length) (hroom : n < 2 ^ m) :
    ∃ slots' lengths', Indexed strings m (n + 1) slots' lengths' ∧
      ∀ fuel ≥ 2 ^ m, addString fuel strings (2 ^ m - 1) (slots, lengths) n = some (slots', lengths') := by
  obtain ⟨c, hprobe, hend, hc, hwalk⟩ := h.walk (Nat.le_of_lt hn) hroom (strings.getD n []) [(strings.getD n []).length]
  have hlengths : lengths ++ [(strings.getD n []).length] = (strings.take (n + 1)).map List.length := by
    rw [List.take_add_one, List.map_append, h.lengths]
    simp [List.getD_eq_getElem?_getD, List.getElem?_eq_getElem hn]
  have hrun : ∀ fuel ≥ 2 ^ m, StringIndex.addString fuel strings (2 ^ m - 1) (slots, lengths) n =
      some (if (cell slots c).isNone then slots.set c (some n) else slots,
        lengths ++ [(strings.getD n []).length]) := by
    intro fuel hfuel
    have hrun := hprobe fuel hfuel
    rw [home] at hrun
    rw [StringIndex.addString, hrun]
    rfl
  refine ⟨_, _, ?_, hrun⟩
  rcases hend with ⟨i, hi, hsame⟩ | ⟨hfree, hnew⟩
  · -- the content is there for an earlier string
    rw [hi, Option.isNone_some, if_neg Bool.false_ne_true]
    refine ⟨h.size, h.valid, fun j => ?_, Nat.le_succ_of_le h.load, hlengths⟩
    rw [h.first j]
    refine ⟨fun ⟨hj, hfirst⟩ => ⟨Nat.lt_succ_of_lt hj, hfirst⟩, fun ⟨hj, hfirst⟩ => ⟨?_, hfirst⟩⟩
    rcases Nat.lt_succ_iff_lt_or_eq.mp hj with hj | rfl
    · exact hj
    · exact absurd hsame (hfirst i ((h.first i).mp ⟨c, hi⟩).1)
  · rw [hfree]
    refine ⟨by simpa using h.size, h.valid.insert hc hfree hwalk hnew, fun j => ?_, ?_, hlengths⟩
    · rw [Option.isNone_none, if_pos rfl, has_insert hc hfree, h.first j]
      constructor
      · rintro (rfl | ⟨hj, hfirst⟩)
        · refine ⟨Nat.lt_succ_self _, fun i hi hsame => ?_⟩
          obtain ⟨k, hk, hcontent⟩ := h.exists_first hi
          exact hnew k hk (hcontent.trans hsame)
        · exact ⟨Nat.lt_succ_of_lt hj, hfirst⟩
      · rintro ⟨hj, hfirst⟩
        exact (Nat.lt_succ_iff_lt_or_eq.mp hj).symm.imp id fun hj => ⟨hj, hfirst⟩
    · rw [Option.isNone_none, if_pos rfl, filled_set hc hfree]
      exact Nat.succ_le_succ h.load

end Step

theorem build_ok (hm : strings.length < 2 ^ m) : ∀ n ≤ strings.length, ∃ slots lengths,
    Indexed strings m n slots lengths ∧ ∀ fuel ≥ 2 ^ m,
      (List.range n).foldlM (addString fuel strings (2 ^ m - 1)) (List.replicate (2 ^ m) none, []) =
        some (slots, lengths) := by
  intro n
  induction n with
  | zero => exact fun _ => ⟨_, _, indexed_zero strings m, fun _ _ => rfl⟩
  | succ n ih =>
    intro hn
    obtain ⟨slots, lengths, h, hrun⟩ := ih (Nat.le_of_succ_le hn)
    obtain ⟨slots', lengths', h', hstep⟩ := h.addString hn (Nat.lt_trans hn hm)
    refine ⟨slots', lengths', h', fun fuel hfuel => ?_⟩
    rw [List.range_succ, List.foldlM_append, hrun fuel hfuel]
    show (addString fuel strings (2 ^ m - 1) (slots, lengths) n >>= fun s => pure s) = _
    rw [hstep fuel hfuel]
    rfl

theorem scan_first {i : Nat} (hi : i < strings.length) (hname : strings.getD i [] = name)
    (hfirst : ∀ j < i, strings.getD j [] ≠ name) : scan strings name = i := by
  have hfind : strings.findIdx? (fun candidate => candidate.length = name.length && candidate = name) = some i := by
    rw [List.findIdx?_eq_some_iff_getElem]
    refine ⟨hi, ?_, fun j hj => ?_⟩
    · rw [List.getD_eq_getElem?_getD, List.getElem?_eq_getElem hi, Option.getD_some] at hname
      simp [hname]
    · have hne := hfirst j hj
      rw [List.getD_eq_getElem?_getD, List.getElem?_eq_getElem (Nat.lt_trans hj hi), Option.getD_some] at hne
      simp [hne]
  rw [scan, hfind]

theorem scan_absent (habsent : ∀ i < strings.length, strings.getD i [] ≠ name) : scan strings name = -1 := by
  have hfind : strings.findIdx? (fun candidate => candidate.length = name.length && candidate = name) = none := by
    rw [List.findIdx?_eq_none_iff]
    intro s hs
    obtain ⟨i, hi, rfl⟩ := List.mem_iff_getElem.mp hs
    have hne := habsent i hi
    rw [List.getD_eq_getElem?_getD, List.getElem?_eq_getElem hi, Option.getD_some] at hne
    simp [hne]
  rw [scan, hfind]

theorem Indexed.lookup (h : Indexed strings m strings.length slots lengths) (hm : strings.length < 2 ^ m)
    (hfuel : 2 ^ m ≤ fuel) (name : UString) :
    hashTypeStringIndex fuel strings ⟨some slots, lengths, 2 ^ m - 1⟩ name = some (scan strings name) := by
  obtain ⟨c, hprobe, hend, -⟩ := h.walk (Nat.le_refl _) hm name []
  have hrun := hprobe fuel hfuel
  rw [List.append_nil, home] at hrun
  unfold hashTypeStringIndex
  dsimp only
  rw [hrun]
  rcases hend with ⟨i, hi, rfl⟩ | ⟨hfree, habsent⟩
  · obtain ⟨hlt, hfirst⟩ := (h.first i).mp ⟨c, hi⟩
    rw [scan_first hlt rfl hfirst]
    simp [hi]
  · rw [scan_absent fun i hi hsame => ?_]
    · simp [hfree]
    · obtain ⟨k, hk, hcontent⟩ := h.exists_first hi
      exact habsent k hk (hcontent.trans hsame)

/-- The lookup for a name of the type hash answers what the scan of the table does exactly when the table has no more
than 2^29 strings. For more its size is not an `int`. -/
theorem type_string_index_iff (strings : List UString) : Equivalent strings ↔ strings.length ≤ 2 ^ 29 := by
  constructor
  · intro h
    by_contra hlt
    obtain ⟨n, hn⟩ := h true true
    obtain ⟨index, hbuild, -⟩ := hn n (Nat.le_refl n)
    rw [typeStringIndexBuild, indexSize_none (Nat.lt_of_not_le hlt)] at hbuild
    cases hbuild
  · intro hle mallocSlots mallocLengths
    obtain ⟨m, hsize, hm⟩ := indexSize_spec hle
    refine ⟨2 ^ m, fun fuel hfuel => ?_⟩
    by_cases hmemory : !mallocSlots || !mallocLengths
    · refine ⟨⟨none, [], 2 ^ m - 1⟩, ?_, fun name => rfl⟩
      rw [typeStringIndexBuild, hsize]
      simp [hmemory]
    · obtain ⟨slots, lengths, h, hrun⟩ := build_ok hm strings.length (Nat.le_refl _)
      refine ⟨⟨some slots, lengths, 2 ^ m - 1⟩, ?_, h.lookup hm hfuel⟩
      rw [typeStringIndexBuild, hsize]
      simp [hmemory, hrun fuel hfuel]

/-- One string more than that, all of them empty. -/
theorem type_string_index_overflows : ¬Equivalent (List.replicate (2 ^ 29 + 1) []) := by
  intro h
  obtain ⟨n, hn⟩ := h true true
  obtain ⟨index, hbuild, -⟩ := hn n (Nat.le_refl n)
  rw [typeStringIndexBuild, List.length_replicate, indexSize_none (by decide)] at hbuild
  cases hbuild

end Index

end HashLink.StringIndex
