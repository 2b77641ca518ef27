import Mathlib.Data.List.Basic
import Mathlib.Data.Nat.ModEq

/-!
Little-endian numbers in byte strings: the bytes of a number, the number of some bytes, and reads at an offset
that stay inside the string.
-/

namespace LittleEndian

/-- The `n` low bytes of a number. -/
def bytes : Nat → Nat → List UInt8
  | 0, _ => []
  | n + 1, v => UInt8.ofNat v :: bytes n (v / 256)

def value : List UInt8 → Nat
  | [] => 0
  | b :: l => b.toNat + 256 * value l

/-- The bytes from `i` on, when the string has them all. -/
def slice (p : List UInt8) (i n : Nat) : Option (List UInt8) :=
  if i + n ≤ p.length then some ((p.drop i).take n) else none

/-- A number of `n` bytes at `i`. -/
def read (p : List UInt8) (i n : Nat) : Option Nat := (slice p i n).map value

@[simp] theorem length_bytes (n v : Nat) : (bytes n v).length = n := by
  induction n generalizing v with
  | zero => rfl
  | succ n ih => rw [bytes, List.length_cons, ih]

theorem value_bytes (n v : Nat) : value (bytes n v) = v % 256 ^ n := by
  induction n generalizing v with
  | zero => rw [Nat.pow_zero, Nat.mod_one, bytes, value]
  | succ n ih =>
    rw [bytes, value, ih, Nat.pow_succ', Nat.mod_mul]
    rfl

theorem bytes_add (m n v : Nat) : bytes (m + n) v = bytes m v ++ bytes n (v / 256 ^ m) := by
  induction m generalizing v with
  | zero => rw [Nat.zero_add, Nat.pow_zero, Nat.div_one, bytes, List.nil_append]
  | succ m ih =>
    rw [Nat.succ_add, bytes, bytes, ih, List.cons_append, Nat.div_div_eq_div_mul, Nat.pow_succ']

section Reads

variable {p : List UInt8} {i n : Nat}

theorem slice_eq_some_iff {l : List UInt8} :
    slice p i n = some l ↔ i + n ≤ p.length ∧ (p.drop i).take n = l := by
  unfold slice
  split
  · next h => simp [h]
  · next h => simp [h]

theorem slice_isSome : (slice p i n).isSome ↔ i + n ≤ p.length := by
  unfold slice
  split <;> simp_all

theorem read_isSome : (read p i n).isSome ↔ i + n ≤ p.length := by
  rw [read, Option.isSome_map, slice_isSome]

theorem slice_append {before l after : List UInt8} (hi : i = before.length) (hn : n = l.length) :
    slice (before ++ l ++ after) i n = some l := by
  subst hi hn
  rw [slice_eq_some_iff]
  refine ⟨by simp only [List.length_append]; omega, ?_⟩
  rw [List.append_assoc, List.drop_left, List.take_left]

theorem read_append {v : Nat} {before after : List UInt8} (hi : i = before.length) :
    read (before ++ bytes n v ++ after) i n = some (v % 256 ^ n) := by
  rw [read, slice_append hi (length_bytes n v).symm, Option.map_some, value_bytes]

theorem read_at {v : Nat} {before after : List UInt8} (hp : p = before ++ bytes n v ++ after)
    (hi : i = before.length) (hv : v < 256 ^ n) : read p i n = some v := by
  rw [hp, read_append hi, Nat.mod_eq_of_lt hv]

end Reads

end LittleEndian
