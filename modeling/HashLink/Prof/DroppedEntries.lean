import HashLink.Prof.Writers

/-!
The entries of a dropped-calls event: the consumer reads back the keys and the counts that the table had.
-/

namespace HashLink.Prof

open LittleEndian

def droppedEntries (p : List UInt8) (at_ : Nat) : Nat → Option (List (Nat × Nat))
  | 0 => some []
  | n + 1 => do
      let key ← read p at_ 8
      let count ← read p (at_ + 8) 4
      let rest ← droppedEntries p (at_ + 16) n
      return (key, count) :: rest

variable {p : List UInt8} {pos n : Nat}

theorem read_some_of_le {k : Nat} (h : pos + k ≤ p.length) : ∃ v, read p pos k = some v :=
  Option.isSome_iff_exists.1 (read_isSome.2 h)

theorem droppedEntries_some (h : pos + 16 * n ≤ p.length) : ∃ entries, droppedEntries p pos n = some entries := by
  induction n generalizing pos with
  | zero => exact ⟨[], rfl⟩
  | succ n ih =>
    obtain ⟨key, hkey⟩ : ∃ v, read p pos 8 = some v := read_some_of_le (by omega)
    obtain ⟨count, hcount⟩ : ∃ v, read p (pos + 8) 4 = some v := read_some_of_le (by omega)
    obtain ⟨rest, hrest⟩ : ∃ entries, droppedEntries p (pos + 16) n = some entries := ih (by omega)
    exact ⟨(key, count) :: rest, by simp [droppedEntries, hkey, hcount, hrest]⟩

theorem countP_set_le {l : List DroppedCall} {i : Nat} {d : DroppedCall} :
    (l.set i d).countP (fun d => d.key ≠ 0) ≤ l.countP (fun d => d.key ≠ 0) + 1 := by
  induction l generalizing i with
  | nil => exact Nat.zero_le _
  | cons e l ih =>
    cases i with
    | zero =>
      rw [List.set_cons_zero, List.countP_cons, List.countP_cons]
      split <;> split <;> omega
    | succ i =>
      have := ih (i := i)
      rw [List.set_cons_succ, List.countP_cons, List.countP_cons]
      omega

theorem countP_set_count {l : List DroppedCall} {i : Nat} {count : UInt32} :
    (l.set i ⟨(l.getD i ⟨0, 0⟩).key, count⟩).countP (fun d => d.key ≠ 0) = l.countP (fun d => d.key ≠ 0) := by
  induction l generalizing i with
  | nil => rfl
  | cons e l ih =>
    cases i with
    | zero => rw [List.set_cons_zero, List.countP_cons, List.countP_cons, List.getD_cons_zero]
    | succ i => rw [List.set_cons_succ, List.countP_cons, List.countP_cons, List.getD_cons_succ, ih]

def DroppedCall.bytes (d : DroppedCall) : List UInt8 :=
  LittleEndian.bytes 8 d.key.toNat ++ LittleEndian.bytes 8 d.count.toNat

theorem droppedEntries_cons {p before after : List UInt8} {d : DroppedCall} {n : Nat}
    (hp : p = before ++ d.bytes ++ after) :
    droppedEntries p before.length (n + 1) =
      (droppedEntries p (before.length + 16) n).map ((d.key.toNat, d.count.toNat) :: ·) := by
  have hkey : read p before.length 8 = some d.key.toNat := by
    have hparts : p = before ++ LittleEndian.bytes 8 d.key.toNat ++
        (LittleEndian.bytes 8 d.count.toNat ++ after) := by
      rw [hp, DroppedCall.bytes]
      simp only [List.append_assoc]
    exact read_at hparts rfl d.key.toNat_lt
  have hcount : read p (before.length + 8) 4 = some d.count.toNat := by
    have hparts : p = (before ++ LittleEndian.bytes 8 d.key.toNat) ++ LittleEndian.bytes 4 d.count.toNat ++
        (LittleEndian.bytes 4 (d.count.toNat / 256 ^ 4) ++ after) := by
      rw [hp, DroppedCall.bytes, bytes_add 4 4 d.count.toNat]
      simp only [List.append_assoc]
    exact read_at hparts (by rw [List.length_append, LittleEndian.length_bytes]) d.count.toNat_lt
  rw [droppedEntries, hkey, hcount]
  cases droppedEntries p (before.length + 16) n <;> rfl

theorem droppedEntries_entries {p before l : List UInt8} {dropped : List DroppedCall} {k : Nat}
    (hp : p = before ++ dropped.flatMap DroppedCall.bytes ++ l) (hk : 16 * k ≤ l.length) :
    ∃ rest, droppedEntries p before.length (dropped.length + k) =
      some ((dropped.map fun d => (d.key.toNat, d.count.toNat)) ++ rest) := by
  induction dropped generalizing before with
  | nil =>
    have hroom : before.length + 16 * k ≤ p.length := by
      rw [hp, List.flatMap_nil, List.append_nil, List.length_append]
      omega
    rw [List.length_nil, Nat.zero_add]
    exact droppedEntries_some hroom
  | cons d dropped ih =>
    have hparts : p = before ++ d.bytes ++ (dropped.flatMap DroppedCall.bytes ++ l) := by
      rw [hp, List.flatMap_cons]
      simp only [List.append_assoc]
    have hlength : (before ++ d.bytes).length = before.length + 16 := by
      rw [DroppedCall.bytes]
      simp only [List.length_append, LittleEndian.length_bytes]
    obtain ⟨rest, hrest⟩ := ih (hparts.trans (List.append_assoc _ _ _).symm)
    have hsum : (d :: dropped).length + k = (dropped.length + k) + 1 := by
      rw [List.length_cons]
      omega
    rw [hlength] at hrest
    exact ⟨rest, by rw [hsum, droppedEntries_cons hparts, hrest]; rfl⟩

end HashLink.Prof
