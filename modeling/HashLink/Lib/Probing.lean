import HashLink.Lib.SortedTable
import Mathlib.Data.List.Nodup
import Mathlib.Data.List.Perm.Subperm

/-!
Names numbered by a hash. A name gets the first number from its hash on that no other name holds, and
the numbers given are kept in a sorted table.
-/

namespace Probing

open SortedTable

variable {α : Type}

structure Entry (α : Type) where
  number : Int
  name : α
  deriving DecidableEq

/-- What every table has: a name is in it once, at or above its hash, and every number that was passed
over for it is held. -/
structure Valid (hash : α → Int) (table : List (Entry α)) : Prop where
  sorted : Sorted Entry.number table
  names : ∀ e ∈ table, ∀ e' ∈ table, e.name = e'.name → e = e'
  above : ∀ e ∈ table, hash e.name ≤ e.number
  passed : ∀ e ∈ table, ∀ k, hash e.name ≤ k → k < e.number → ∃ e' ∈ table, e'.number = k

variable {hash : α → Int} {table : List (Entry α)} {name : α} {fuel : Nat} {h k : Int}

theorem valid_nil (hash : α → Int) : Valid hash [] :=
  ⟨.nil, fun _ h => absurd h List.not_mem_nil, fun _ h => absurd h List.not_mem_nil,
    fun _ h => absurd h List.not_mem_nil⟩

theorem Valid.number_eq_hash_iff (hvalid : Valid hash table) {e : Entry α} (he : e ∈ table) :
    e.number = hash e.name ↔ ∀ e' ∈ table, e'.number = hash e.name → e'.name = e.name := by
  constructor
  · intro heq e' he' hnumber
    rw [hvalid.sorted.eq_of_key he' he (hnumber.trans heq.symm)]
  · intro honly
    rcases Int.lt_or_eq_of_le (hvalid.above e he) with hlt | heq
    · obtain ⟨e', he', hnumber⟩ := hvalid.passed e he _ (Int.le_refl _) hlt
      rw [hvalid.names e' he' e he (honly e' he' hnumber)] at hnumber
      exact hnumber
    · exact heq.symm

section Walk

variable [DecidableEq α]

/-- The walk from the number `h` over the numbers of other names: where it ends, and the entry there. -/
def probe (table : List (Entry α)) (name : α) : Nat → Int → Option (Int × Option (Entry α))
  | 0, _ => none
  | fuel + 1, h =>
    match find Entry.number table h with
    | some e => if e.name ≠ name then probe table name fuel (h + 1) else some (h, some e)
    | none => some (h, none)

def Taken (table : List (Entry α)) (name : α) (k : Int) : Prop :=
  ∃ e ∈ table, e.number = k ∧ e.name ≠ name

theorem probe_some (hsorted : Sorted Entry.number table) {r : Option (Entry α)}
    (hprobe : probe table name fuel h = some (k, r)) :
    h ≤ k ∧ k < h + fuel ∧ (∀ i, h ≤ i → i < k → Taken table name i) ∧
      (∀ e, r = some e → e ∈ table ∧ e.number = k ∧ e.name = name) ∧
      (r = none → ∀ e ∈ table, e.number ≠ k) := by
  induction fuel generalizing h with
  | zero => cases hprobe
  | succ fuel ih =>
    rw [probe] at hprobe
    split at hprobe
    · rename_i e hfind
      obtain ⟨he, hnumber⟩ := find_some hfind
      split at hprobe
      · rename_i hother
        obtain ⟨hle, hlt, htaken, hrest⟩ := ih hprobe
        refine ⟨by omega, by omega, fun i hi hik => ?_, hrest⟩
        rcases Int.lt_or_eq_of_le hi with hi | rfl
        · exact htaken i (by omega) hik
        · exact ⟨e, he, hnumber, hother⟩
      · rename_i hsame
        cases hprobe
        refine ⟨Int.le_refl _, by omega, fun i _ _ => by omega, ?_, nofun⟩
        rintro _ ⟨⟩
        exact ⟨he, hnumber, Decidable.not_not.mp hsame⟩
    · rename_i hfind
      cases hprobe
      exact ⟨Int.le_refl _, by omega, fun i _ _ => by omega, nofun, fun _ => find_none hsorted.ordered hfind⟩

theorem probe_none (hprobe : probe table name fuel h = none) :
    ∀ i : Nat, i < fuel → h + i ∈ table.map Entry.number := by
  induction fuel generalizing h with
  | zero => exact fun i hi => absurd hi (Nat.not_lt_zero i)
  | succ fuel ih =>
    rw [probe] at hprobe
    split at hprobe
    · rename_i e hfind
      obtain ⟨he, rfl⟩ := find_some hfind
      split at hprobe
      · intro i hi
        cases i with
        | zero => exact List.mem_map.mpr ⟨e, he, by simp⟩
        | succ i =>
          have hmem := ih hprobe i (by omega)
          rwa [Int.add_assoc, Int.add_comm 1, ← Int.natCast_succ] at hmem
      · cases hprobe
    · cases hprobe

theorem probe_ends (table : List (Entry α)) (name : α) (h : Int) :
    ∃ r, probe table name (table.length + 1) h = some r := by
  cases hprobe : probe table name (table.length + 1) h with
  | some r => exact ⟨r, rfl⟩
  | none =>
    have hsub : (List.range (table.length + 1)).map (fun i : Nat => h + i) ⊆ table.map Entry.number := by
      intro x hx
      obtain ⟨i, hi, rfl⟩ := List.mem_map.mp hx
      exact probe_none hprobe i (List.mem_range.mp hi)
    have hnodup : ((List.range (table.length + 1)).map (fun i : Nat => h + i)).Nodup :=
      List.Nodup.map (fun i j hij => by omega) List.nodup_range
    have hle := (List.subperm_of_subset hnodup hsub).length_le
    simp only [List.length_map, List.length_range] at hle
    omega

section Step

variable (hvalid : Valid hash table)
include hvalid

theorem probe_known {e : Entry α} (he : e ∈ table) {r : Option (Entry α)}
    (hprobe : probe table e.name fuel (hash e.name) = some (k, r)) : k = e.number ∧ r = some e := by
  obtain ⟨hle, -, htaken, hsome, hnone⟩ := probe_some hvalid.sorted hprobe
  cases r with
  | some e' =>
    obtain ⟨he', rfl, hname⟩ := hsome e' rfl
    obtain rfl := hvalid.names e' he' e he hname
    exact ⟨rfl, rfl⟩
  | none =>
    have hfree := hnone rfl
    exfalso
    rcases Int.lt_trichotomy k e.number with hlt | heq | hgt
    · obtain ⟨e', he', hnumber⟩ := hvalid.passed e he k hle hlt
      exact hfree e' he' hnumber
    · exact hfree e he heq.symm
    · obtain ⟨e', he', hnumber, hne⟩ := htaken e.number (hvalid.above e he) hgt
      exact hne (congrArg Entry.name (hvalid.sorted.eq_of_key he' he hnumber))

theorem probe_free (hprobe : probe table name fuel (hash name) = some (k, none)) :
    (∀ e ∈ table, e.name ≠ name) ∧ Valid hash (insert Entry.number table ⟨k, name⟩) := by
  obtain ⟨hle, -, htaken, -, hnone⟩ := probe_some hvalid.sorted hprobe
  have hfree := hnone rfl
  have hnew : ∀ e ∈ table, e.name ≠ name := by
    rintro e he rfl
    cases (probe_known hvalid he hprobe).2
  refine ⟨hnew, sorted_insert hvalid.sorted hfree, ?_, ?_, ?_⟩
  · intro e he e' he' hname
    rcases mem_insert.mp he with rfl | he <;> rcases mem_insert.mp he' with rfl | he'
    · rfl
    · exact absurd hname.symm (hnew e' he')
    · exact absurd hname (hnew e he)
    · exact hvalid.names e he e' he' hname
  · intro e he
    rcases mem_insert.mp he with rfl | he
    · exact hle
    · exact hvalid.above e he
  · intro e he i hi hlt
    rcases mem_insert.mp he with rfl | he
    · obtain ⟨e', he', hnumber, -⟩ := htaken i hi hlt
      exact ⟨e', mem_insert.mpr (.inr he'), hnumber⟩
    · obtain ⟨e', he', hnumber⟩ := hvalid.passed e he i hi hlt
      exact ⟨e', mem_insert.mpr (.inr he'), hnumber⟩

end Step

end Walk

end Probing
