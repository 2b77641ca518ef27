import Mathlib.Data.List.Basic

/-!
Bytes at flat addresses, with the two ways a block of them changes: a copy, which may overlap its
source, and a write. What a block holds afterwards follows from where it lies.
-/

namespace FlatMemory

abbrev Memory := Int → UInt8

/-- `memcpy` and `memmove`. -/
def copyBytes (mem : Memory) (dst src : Int) (n : Nat) : Memory := fun a =>
  if dst ≤ a ∧ a < dst + n then mem (src + (a - dst)) else mem a

def writeBytes (mem : Memory) (dst : Int) (n : Nat) (value : Nat → UInt8) : Memory := fun a =>
  if dst ≤ a ∧ a < dst + n then value (a - dst).toNat else mem a

/-- The block of `n` bytes at `a`. -/
def bytes (mem : Memory) (a : Int) (n : Nat) : List UInt8 :=
  (List.range n).map fun (k : Nat) => mem (a + k)

def Apart (a : Int) (m : Nat) (b : Int) (n : Nat) : Prop := a + m ≤ b ∨ b + n ≤ a

instance (a : Int) (m : Nat) (b : Int) (n : Nat) : Decidable (Apart a m b n) :=
  inferInstanceAs (Decidable (_ ∨ _))

variable {n : Nat} {mem : Memory} {value : Nat → UInt8}

theorem Apart.symm {a b : Int} {m : Nat} (h : Apart a m b n) : Apart b n a m := Or.symm h

theorem Apart.part {a b a' b' : Int} {m m' n' : Nat} (h : Apart a m b n) (ha : a ≤ a') (ha' : a' + m' ≤ a + m)
    (hb : b ≤ b') (hb' : b' + n' ≤ b + n) : Apart a' m' b' n' := by
  rcases h with h | h
  · exact Or.inl (by omega)
  · exact Or.inr (by omega)

theorem bytes_congr {mem' : Memory} {a b : Int} (h : ∀ k : Nat, k < n → mem (a + k) = mem' (b + k)) :
    bytes mem a n = bytes mem' b n :=
  List.map_congr_left fun k hk => h k (List.mem_range.mp hk)

theorem bytes_inj {mem' : Memory} {a b : Int} (h : bytes mem a n = bytes mem' b n) {k : Nat} (hk : k < n) :
    mem (a + k) = mem' (b + k) :=
  List.map_inj_left.mp h k (List.mem_range.mpr hk)

theorem copyBytes_of_apart {dst src a : Int} (h : a < dst ∨ dst + n ≤ a) : copyBytes mem dst src n a = mem a :=
  if_neg (by omega)

theorem copyBytes_of_mem {dst src : Int} {k : Int} (hk : 0 ≤ k) (hn : k < n) :
    copyBytes mem dst src n (dst + k) = mem (src + k) := by
  rw [copyBytes, if_pos (by omega)]
  congr 1
  omega

theorem writeBytes_of_apart {dst a : Int} (h : a < dst ∨ dst + n ≤ a) : writeBytes mem dst n value a = mem a :=
  if_neg (by omega)

theorem bytes_copyBytes_of_apart {dst src a : Int} {m : Nat} (h : Apart a m dst n) :
    bytes (copyBytes mem dst src n) a m = bytes mem a m :=
  bytes_congr fun k hk => copyBytes_of_apart (by rcases h with h | h <;> omega)

theorem bytes_copyBytes {dst src : Int} {m : Nat} {k : Int} (hk : 0 ≤ k) (hn : k + m ≤ n) :
    bytes (copyBytes mem dst src n) (dst + k) m = bytes mem (src + k) m :=
  bytes_congr fun j hj => by
    rw [Int.add_assoc, Int.add_assoc, copyBytes_of_mem (by omega) (by omega)]

theorem bytes_copyBytes_self {dst src : Int} :
    bytes (copyBytes mem dst src n) dst n = bytes mem src n :=
  bytes_congr fun _ hk => copyBytes_of_mem (Int.natCast_nonneg _) (Int.ofNat_lt.mpr hk)

theorem bytes_writeBytes_of_apart {dst a : Int} {m : Nat} (h : Apart a m dst n) :
    bytes (writeBytes mem dst n value) a m = bytes mem a m :=
  bytes_congr fun k hk => writeBytes_of_apart (by rcases h with h | h <;> omega)

theorem bytes_writeBytes_self {dst : Int} :
    bytes (writeBytes mem dst n value) dst n = (List.range n).map value := by
  refine List.map_congr_left fun k hk => ?_
  have hk' := List.mem_range.mp hk
  rw [writeBytes, if_pos (by omega)]
  congr 1
  omega

end FlatMemory
