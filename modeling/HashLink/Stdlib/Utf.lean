import HashLink.Lib.Utf

/-! The conversions between UTF-8 and UTF-16 of `string.c` and `ucs2.c`. What is in memory is a list of bytes or of
units, which ends with the terminator or where the given length ends, and a read after it has no result. The loops
count in natural numbers, and the conversions keep the counts and the sizes of their blocks in an `int`.

The conversions of a text of characters: its UTF-16 gives its UTF-8, and that gives the UTF-16 back, unless one of
the two is too long for a block. -/

namespace HashLink.Text

open Utf

/-- The code point of two units. The numbers are unsigned, which gives the same low bits. -/
def surrogatePair (hi lo : Nat) : Nat :=
  (((BitVec.ofNat 32 hi - 0xD800#32) <<< 10 ||| (BitVec.ofNat 32 lo - 0xDC00#32)) + 0x10000#32).toNat

def isSurrogate (v : Nat) : Bool := 0xD800 ≤ v && v ≤ 0xDFFF

/-- The first loop of `hl_utf16_to_utf8`, of a text that is terminated or has a length. -/
def countUtf8 (terminated : Bool) : List UInt16 → Option Nat
  | [] => if terminated then none else some 0
  | u :: c =>
    if u = 0 && terminated then some 0
    else if u.toNat < 0x80 then (countUtf8 terminated c).map (1 + ·)
    else if u.toNat < 0x800 then (countUtf8 terminated c).map (2 + ·)
    else if isSurrogate u.toNat then
      match c with
      | [] => none
      | _ :: c => (countUtf8 terminated c).map (4 + ·)
    else (countUtf8 terminated c).map (3 + ·)

/-- The second loop of `hl_utf16_to_utf8`. -/
def writeUtf8 (terminated : Bool) : List UInt16 → Option (List UInt8)
  | [] => if terminated then none else some []
  | u :: c =>
    if u.toNat < 0x80 then
      if u = 0 && terminated then some [0] else (writeUtf8 terminated c).map (UInt8.ofNat u.toNat :: ·)
    else if u.toNat < 0x800 then (writeUtf8 terminated c).map (two u.toNat ++ ·)
    else if isSurrogate u.toNat then
      match c with
      | [] => none
      | lo :: c => (writeUtf8 terminated c).map (four (surrogatePair u.toNat lo.toNat) ++ ·)
    else (writeUtf8 terminated c).map (three u.toNat ++ ·)

/-- The loops of `hl_utf16_to_utf8`: what is written, and the size. A length of zero is that of a text with a
terminator. -/
def hlUtf16ToUtf8 (terminated : Bool) (str : List UInt16) : Option (List UInt8 × Nat) := do
  let utf8bytes ← countUtf8 terminated str
  return (← writeUtf8 terminated str, utf8bytes)

/-- The largest size that the allocator can round up in an `int`. -/
def largestBlock : Int := 2 ^ 31 - 65536

/-- The room that `hl_gc_alloc_noptr` gives. A block of no bytes is a null pointer. -/
def hlGcAllocNoptr (size : Int) : Option Int := if 0 < size ∧ size ≤ largestBlock then some size else none

/-- `hl_utf16_to_utf8`, which has no result when it writes past its block. -/
def hlUtf16ToUtf8Sized (terminated : Bool) (str : List UInt16) : Option (List UInt8 × Int) := do
  let (out, utf8bytes) ← hlUtf16ToUtf8 terminated str
  let size := Int.bmod utf8bytes (2 ^ 32)
  let room ← hlGcAllocNoptr ((size + 1).bmod (2 ^ 32))
  if out.length ≤ room then some (out, size) else none

def ustrlenUtf8 : List UInt16 → Option Nat
  | [] => none
  | c :: str =>
    if c = 0 then some 0
    else if c.toNat < 0x80 then (ustrlenUtf8 str).map (1 + ·)
    else if c.toNat < 0x800 then (ustrlenUtf8 str).map (2 + ·)
    else if isSurrogate c.toNat then
      match str with
      | [] => none
      | _ :: str => (ustrlenUtf8 str).map (4 + ·)
    else (ustrlenUtf8 str).map (3 + ·)

/-- The loop of `utostr`, with room for `room` bytes and the terminator. -/
def utostrLoop (room : Nat) : List UInt16 → Option (List UInt8)
  | [] => if room = 0 then some [] else none
  | c :: str =>
    if room = 0 then some []
    else if c = 0 then some []
    else if c.toNat < 0x80 then (utostrLoop (room - 1) str).map (UInt8.ofNat c.toNat :: ·)
    else if c.toNat < 0x800 then
      if room < 2 then some [] else (utostrLoop (room - 2) str).map (two c.toNat ++ ·)
    else if isSurrogate c.toNat then
      if room < 4 then some []
      else match str with
        | [] => none
        | lo :: str => (utostrLoop (room - 4) str).map (four (surrogatePair c.toNat lo.toNat) ++ ·)
    else if room < 3 then some [] else (utostrLoop (room - 3) str).map (three c.toNat ++ ·)

/-- `utostr`: what is written, the terminator included, and the result. -/
def utostr (outSize : Nat) (str : List UInt16) : Option (List UInt8 × Nat) :=
  if outSize = 0 then some ([], 0)
  else (utostrLoop (outSize - 1) str).map fun out => (out ++ [0], out.length)

def high (b : UInt8) : Bool := b.toNat &&& 0x80 ≠ 0

def hlUtf8Length : List UInt8 → Option Nat
  | [] => none
  | c :: s =>
    if c.toNat < 0x80 then
      if c = 0 then some 0 else (hlUtf8Length s).map (1 + ·)
    else if c.toNat < 0xC0 then some 0
    else if c.toNat < 0xE0 then
      match s with
      | s₁ :: s => if high s₁ then (hlUtf8Length s).map (1 + ·) else some 0
      | _ => none
    else if c.toNat < 0xF0 then
      match s with
      | s₁ :: s₂ :: s => if high s₁ && high s₂ then (hlUtf8Length s).map (1 + ·) else some 0
      | _ => none
    else if c.toNat < 0xF8 then
      match s with
      | s₁ :: s₂ :: s₃ :: s => if high s₁ && high s₂ && high s₃ then (hlUtf8Length s).map (2 + ·) else some 0
      | _ => none
    else some 1

/-- The number of a sequence of four bytes without its first bit, which is unsigned. -/
def lastPlanes (c c₂ c₃ c₄ : Nat) : Nat :=
  (BitVec.ofNat 32 ((c &&& 0x0F) <<< 18 ||| (c₂ &&& 0x7F) <<< 12 ||| (c₃ &&& 0x7F) <<< 6 ||| c₄ &&& 0x7F) -
    0x10000#32).toNat

/-- The units of a number from `0x10000` on, less that. -/
def highUnit (c : Nat) : UInt16 := UInt16.ofNat (c >>> 10 + 0xD800)

def lowUnit (c : Nat) : UInt16 := UInt16.ofNat (c &&& 0x3FF ||| 0xDC00)

def unit2 (c c₁ : Nat) : UInt16 := UInt16.ofNat ((c &&& 0x3F) <<< 6 ||| c₁ &&& 0x7F)

def unit3 (c c₁ c₂ : Nat) : UInt16 := UInt16.ofNat ((c &&& 0x1F) <<< 12 ||| (c₁ &&& 0x7F) <<< 6 ||| c₂ &&& 0x7F)

/-- `hl_from_utf8`, with room for `outLen - p` units: the units that are written before the terminator, and what is
added to `p`. -/
def hlFromUtf8 : Nat → List UInt8 → Option (List UInt16 × Nat)
  | 0, _ => some ([], 0)
  | _ + 1, [] => none
  | room + 1, c :: str =>
    if c.toNat < 0x80 then
      if c = 0 then some ([], 0)
      else (hlFromUtf8 room str).map fun r => (UInt16.ofNat c.toNat :: r.1, 1 + r.2)
    else if c.toNat < 0xE0 then
      match str with
      | c₁ :: str => (hlFromUtf8 room str).map fun r => (unit2 c.toNat c₁.toNat :: r.1, 1 + r.2)
      | _ => none
    else if c.toNat < 0xF0 then
      match str with
      | c₁ :: c₂ :: str => (hlFromUtf8 room str).map fun r => (unit3 c.toNat c₁.toNat c₂.toNat :: r.1, 1 + r.2)
      | _ => none
    else
      match str with
      | c₂ :: c₃ :: c₄ :: str =>
        match room with
        | 0 => some ([], 1)
        | room + 1 =>
          let v := lastPlanes c.toNat c₂.toNat c₃.toNat c₄.toNat
          (hlFromUtf8 room str).map fun r => (highUnit v :: lowUnit v :: r.1, 2 + r.2)
      | _ => none

/-- `hl_utf8_to_utf16`: the units, and the size in bytes. -/
def hlUtf8ToUtf16 (str : List UInt8) : Option (List UInt16 × Int) := do
  let ulen := Int.bmod (← hlUtf8Length str) (2 ^ 32)
  let room ← hlGcAllocNoptr ((2 * (ulen + 1)).bmod (2 ^ 32))
  let r ← hlFromUtf8 ulen.toNat str
  if 2 * (r.1.length + 1) ≤ room then some (r.1, (2 * ulen).bmod (2 ^ 32)) else none

variable {v : Nat} {l : List Char}

theorem toNat_unit (hv : v < 0x10000) : (UInt16.ofNat v).toNat = v := UInt16.toNat_ofNat_of_lt hv

theorem toNat_byte (hv : v < 0x100) : (UInt8.ofNat v).toNat = v := UInt8.toNat_ofNat_of_lt hv

theorem unit_ne_zero (hv : v < 0x10000) (h0 : v ≠ 0) : UInt16.ofNat v ≠ 0 := by
  rw [Ne, ← UInt16.toNat_inj, toNat_unit hv]
  exact h0

theorem byte_ne_zero (hv : v < 0x100) (h0 : v ≠ 0) : UInt8.ofNat v ≠ 0 := by
  rw [Ne, ← UInt8.toNat_inj, toNat_byte hv]
  exact h0

theorem and_eq {a b : Nat} (i n : Nat) (h : a = 2 ^ i * n + b) (hb : b < 2 ^ i) : a &&& (2 ^ i - 1) = b := by
  rw [and_low, h, Nat.mul_add_mod, Nat.mod_eq_of_lt hb]

theorem surrogatePair_eq {hi lo : Nat} (hhi : hi < 0x400) (hlo : lo < 0x400) :
    surrogatePair (0xD800 + hi) (0xDC00 + lo) = 0x10000 + (hi * 1024 + lo) := by
  have hhigh : BitVec.ofNat 32 (0xD800 + hi) - 0xD800#32 = BitVec.ofNat 32 hi := by
    rw [BitVec.ofNat_add, BitVec.add_comm, BitVec.add_sub_cancel]
  have hlow : BitVec.ofNat 32 (0xDC00 + lo) - 0xDC00#32 = BitVec.ofNat 32 lo := by
    rw [BitVec.ofNat_add, BitVec.add_comm, BitVec.add_sub_cancel]
  have hor := or_low (a := hi) 10 (show lo < 2 ^ 10 from hlo)
  rw [surrogatePair, hhigh, hlow, BitVec.toNat_add, BitVec.toNat_or, BitVec.toNat_shiftLeft, BitVec.toNat_ofNat,
    BitVec.toNat_ofNat, Nat.mod_eq_of_lt (show hi < 2 ^ 32 by omega), Nat.mod_eq_of_lt (show lo < 2 ^ 32 by omega),
    Nat.shiftLeft_eq, Nat.mod_eq_of_lt (show hi * 2 ^ 10 < 2 ^ 32 by omega), Nat.mul_comm hi, hor]
  change (2 ^ 10 * hi + lo + 0x10000) % 2 ^ 32 = _
  omega

theorem lastPlanes_eq {hi lo : Nat} (hhi : hi < 0x400) (hlo : lo < 0x400) :
    lastPlanes (0xF0 + (0x10000 + (hi * 1024 + lo)) / 262144) (0x80 + (0x10000 + (hi * 1024 + lo)) / 4096 % 64)
      (0x80 + (0x10000 + (hi * 1024 + lo)) / 64 % 64) (0x80 + (0x10000 + (hi * 1024 + lo)) % 64) = hi * 1024 + lo := by
  obtain ⟨v, hv⟩ : ∃ v, 0x10000 + (hi * 1024 + lo) = v := ⟨_, rfl⟩
  have h₁ : (0xF0 + v / 262144) &&& 0x0F = v / 262144 := and_eq 4 15 rfl (by omega)
  have h₂ : (0x80 + v / 4096 % 64) &&& 0x7F = v / 4096 % 64 := and_eq 7 1 rfl (by omega)
  have h₃ : (0x80 + v / 64 % 64) &&& 0x7F = v / 64 % 64 := and_eq 7 1 rfl (by omega)
  have h₄ : (0x80 + v % 64) &&& 0x7F = v % 64 := and_eq 7 1 rfl (by omega)
  have hor₁ := or_low (a := v / 262144) 18 (show v / 4096 % 64 * 2 ^ 12 < 2 ^ 18 by omega)
  have hor₂ := or_low (a := v / 4096) 12 (show v / 64 % 64 * 2 ^ 6 < 2 ^ 12 by omega)
  have hor₃ := or_low (a := v / 64) 6 (show v % 64 < 2 ^ 6 by omega)
  have hjoin₁ : 2 ^ 18 * (v / 262144) + v / 4096 % 64 * 2 ^ 12 = 2 ^ 12 * (v / 4096) := by omega
  have hjoin₂ : 2 ^ 12 * (v / 4096) + v / 64 % 64 * 2 ^ 6 = 2 ^ 6 * (v / 64) := by omega
  rw [hv, lastPlanes, h₁, h₂, h₃, h₄, Nat.shiftLeft_eq, Nat.shiftLeft_eq, Nat.shiftLeft_eq, Nat.mul_comm (v / 262144),
    hor₁, hjoin₁, hor₂, hjoin₂, hor₃, BitVec.toNat_sub, BitVec.toNat_ofNat]
  change (2 ^ 32 - 0x10000 + (2 ^ 6 * (v / 64) + v % 64) % 2 ^ 32) % 2 ^ 32 = _
  omega

theorem highUnit_eq {hi lo : Nat} (hlo : lo < 0x400) : highUnit (hi * 1024 + lo) = UInt16.ofNat (0xD800 + hi) := by
  rw [highUnit, Nat.shiftRight_eq_div_pow]
  congr 1
  omega

theorem lowUnit_eq {hi lo : Nat} (hlo : lo < 0x400) : lowUnit (hi * 1024 + lo) = UInt16.ofNat (0xDC00 + lo) := by
  have hand : hi * 1024 + lo &&& 0x3FF = lo := and_eq 10 hi (by omega) hlo
  have hor := or_low (a := 55) 10 (show lo < 2 ^ 10 from hlo)
  rw [lowUnit, hand, Nat.or_comm]
  exact congrArg UInt16.ofNat hor

theorem unit2_eq (hv : v < 0x800) : unit2 (0xC0 + v / 64) (0x80 + v % 64) = UInt16.ofNat v := by
  have h₁ : (0xC0 + v / 64) &&& 0x3F = v / 64 := and_eq 6 3 rfl (by omega)
  have h₂ : (0x80 + v % 64) &&& 0x7F = v % 64 := and_eq 7 1 rfl (by omega)
  have hor := or_low (a := v / 64) 6 (show v % 64 < 2 ^ 6 by omega)
  rw [unit2, h₁, h₂, Nat.shiftLeft_eq, Nat.mul_comm, hor]
  congr 1
  omega

theorem unit3_eq (hv : v < 0x10000) :
    unit3 (0xE0 + v / 4096) (0x80 + v / 64 % 64) (0x80 + v % 64) = UInt16.ofNat v := by
  have h₁ : (0xE0 + v / 4096) &&& 0x1F = v / 4096 := and_eq 5 7 rfl (by omega)
  have h₂ : (0x80 + v / 64 % 64) &&& 0x7F = v / 64 % 64 := and_eq 7 1 rfl (by omega)
  have h₃ : (0x80 + v % 64) &&& 0x7F = v % 64 := and_eq 7 1 rfl (by omega)
  have hor₁ := or_low (a := v / 4096) 12 (show v / 64 % 64 * 2 ^ 6 < 2 ^ 12 by omega)
  have hor₂ := or_low (a := v / 64) 6 (show v % 64 < 2 ^ 6 by omega)
  have hjoin : 2 ^ 12 * (v / 4096) + v / 64 % 64 * 2 ^ 6 = 2 ^ 6 * (v / 64) := by omega
  rw [unit3, h₁, h₂, h₃, Nat.shiftLeft_eq, Nat.shiftLeft_eq, Nat.mul_comm (v / 4096), hor₁, hjoin, hor₂]
  congr 1
  omega

variable {v : Nat} {us : List UInt16} {bs : List UInt8}

theorem isSurrogate_eq : isSurrogate v = true ↔ 0xD800 ≤ v ∧ v ≤ 0xDFFF := by simp [isSurrogate]

theorem writeUtf8_char (h : Form v us bs) (hv : v ≠ 0) (terminated : Bool) (rest : List UInt16) :
    writeUtf8 terminated (us ++ rest) = (writeUtf8 terminated rest).map (bs ++ ·) := by
  cases h with
  | one hlt =>
    have hzero : (decide (UInt16.ofNat v = 0) && terminated) = false := by
      rw [decide_eq_false (unit_ne_zero (by omega) hv), Bool.false_and]
    rw [List.singleton_append, writeUtf8.eq_def]
    dsimp only
    rw [toNat_unit (by omega), if_pos hlt, hzero]
    rfl
  | two hlow hhigh =>
    rw [List.singleton_append, writeUtf8.eq_def]
    dsimp only
    rw [toNat_unit (by omega), if_neg (by omega), if_pos hhigh]
  | three hlow hhigh hpart =>
    rw [List.singleton_append, writeUtf8.eq_def]
    dsimp only
    rw [toNat_unit hhigh, if_neg (by omega), if_neg (by omega), if_neg (mt (isSurrogate_eq).1 hpart)]
  | @four hi lo hhi hlo =>
    rw [List.cons_append, List.singleton_append, writeUtf8.eq_def]
    dsimp only
    rw [toNat_unit (by omega), if_neg (by omega), if_neg (by omega), if_pos ((isSurrogate_eq).2 (by omega)),
      toNat_unit (by omega), surrogatePair_eq hhi hlo]

theorem countUtf8_char (h : Form v us bs) (hv : v ≠ 0) (terminated : Bool) (rest : List UInt16) :
    countUtf8 terminated (us ++ rest) = (countUtf8 terminated rest).map (bs.length + ·) := by
  have hzero : ∀ {n : Nat}, n < 0x10000 → n ≠ 0 → (decide (UInt16.ofNat n = 0) && terminated) = false := by
    intro n hn hne
    rw [decide_eq_false (unit_ne_zero hn hne), Bool.false_and]
  cases h with
  | one hlt =>
    rw [List.singleton_append, countUtf8.eq_def]
    dsimp only
    rw [hzero (by omega) hv, if_neg Bool.false_ne_true, toNat_unit (by omega), if_pos hlt]
    rfl
  | two hlow hhigh =>
    rw [List.singleton_append, countUtf8.eq_def]
    dsimp only
    rw [hzero (by omega) hv, if_neg Bool.false_ne_true, toNat_unit (by omega), if_neg (by omega), if_pos hhigh]
    rfl
  | three hlow hhigh hpart =>
    rw [List.singleton_append, countUtf8.eq_def]
    dsimp only
    rw [hzero hhigh hv, if_neg Bool.false_ne_true, toNat_unit hhigh, if_neg (by omega), if_neg (by omega),
      if_neg (mt (isSurrogate_eq).1 hpart)]
    rfl
  | @four hi lo hhi hlo =>
    rw [List.cons_append, List.singleton_append, countUtf8.eq_def]
    dsimp only
    rw [hzero (by omega) (by omega), if_neg Bool.false_ne_true, toNat_unit (by omega), if_neg (by omega), if_neg (by omega),
      if_pos ((isSurrogate_eq).2 (by omega))]
    rfl

theorem ustrlenUtf8_eq (str : List UInt16) : ustrlenUtf8 str = countUtf8 true str := by
  fun_induction ustrlenUtf8 str with
  | case1 => rfl
  | _ =>
    rw [countUtf8.eq_def]
    simp_all only [Bool.and_true, decide_true, decide_false, if_true, if_false, Bool.false_eq_true]

theorem utostrLoop_char (h : Form v us bs) (hv : v ≠ 0) {room : Nat} (hroom : bs.length ≤ room) (rest : List UInt16) :
    utostrLoop room (us ++ rest) = (utostrLoop (room - bs.length) rest).map (bs ++ ·) := by
  cases h with
  | one hlt =>
    rw [List.length_singleton] at hroom ⊢
    rw [List.singleton_append, utostrLoop.eq_def]
    dsimp only
    rw [if_neg (by omega), if_neg (unit_ne_zero (by omega) hv), toNat_unit (by omega), if_pos hlt]
    rfl
  | two hlow hhigh =>
    have hlength : (two v).length = 2 := rfl
    rw [hlength] at hroom ⊢
    rw [List.singleton_append, utostrLoop.eq_def]
    dsimp only
    rw [if_neg (by omega), if_neg (unit_ne_zero (by omega) hv), toNat_unit (by omega), if_neg (by omega),
      if_pos hhigh, if_neg (by omega)]
  | three hlow hhigh hpart =>
    have hlength : (three v).length = 3 := rfl
    rw [hlength] at hroom ⊢
    rw [List.singleton_append, utostrLoop.eq_def]
    dsimp only
    rw [if_neg (by omega), if_neg (unit_ne_zero hhigh hv), toNat_unit hhigh, if_neg (by omega), if_neg (by omega),
      if_neg (mt (isSurrogate_eq).1 hpart), if_neg (by omega)]
  | @four hi lo hhi hlo =>
    have hlength : (four (0x10000 + (hi * 1024 + lo))).length = 4 := rfl
    rw [hlength] at hroom ⊢
    rw [List.cons_append, List.singleton_append, utostrLoop.eq_def]
    dsimp only
    rw [if_neg (by omega), if_neg (unit_ne_zero (by omega) (by omega)), toNat_unit (by omega), if_neg (by omega),
      if_neg (by omega), if_pos ((isSurrogate_eq).2 (by omega)), if_neg (by omega), toNat_unit (by omega),
      surrogatePair_eq hhi hlo]

theorem high_iff (b : UInt8) : high b = true ↔ 0x80 ≤ b.toNat := by
  have hall : ∀ n : Fin 256, (n.val &&& 0x80 ≠ 0) ↔ 0x80 ≤ n.val := by decide +kernel
  rw [high, decide_eq_true_iff]
  exact hall ⟨b.toNat, b.toNat_lt⟩

theorem high_tail {a : Nat} (ha : a < 64) : high (UInt8.ofNat (0x80 + a)) = true := by
  rw [high_iff, toNat_byte (by omega)]
  omega

theorem hlUtf8Length_char (h : Form v us bs) (hv : v ≠ 0) (rest : List UInt8) :
    hlUtf8Length (bs ++ rest) = (hlUtf8Length rest).map (us.length + ·) := by
  cases h with
  | one hlt =>
    rw [List.singleton_append, hlUtf8Length.eq_def]
    dsimp only
    rw [toNat_byte (by omega), if_pos hlt, if_neg (byte_ne_zero (by omega) hv)]
    rfl
  | two hlow hhigh =>
    rw [two_eq hhigh, List.cons_append, List.singleton_append, hlUtf8Length.eq_def]
    dsimp only
    rw [toNat_byte (by omega), if_neg (by omega), if_neg (by omega), if_pos (by omega), if_pos (high_tail (by omega))]
    rfl
  | three hlow hhigh hpart =>
    rw [three_eq hhigh, List.cons_append, List.cons_append, List.singleton_append, hlUtf8Length.eq_def]
    dsimp only
    rw [toNat_byte (by omega), if_neg (by omega), if_neg (by omega), if_neg (by omega), if_pos (by omega),
      high_tail (by omega), high_tail (by omega)]
    rfl
  | @four hi lo hhi hlo =>
    rw [four_eq (by omega), List.cons_append, List.cons_append, List.cons_append, List.singleton_append,
      hlUtf8Length.eq_def]
    dsimp only
    rw [toNat_byte (by omega), if_neg (by omega), if_neg (by omega), if_neg (by omega), if_neg (by omega),
      if_pos (by omega), high_tail (by omega), high_tail (by omega), high_tail (by omega)]
    rfl

theorem hlFromUtf8_char (h : Form v us bs) (hv : v ≠ 0) (room : Nat) (rest : List UInt8) :
    hlFromUtf8 (us.length + room) (bs ++ rest) = (hlFromUtf8 room rest).map fun r => (us ++ r.1, us.length + r.2) := by
  cases h with
  | one hlt =>
    rw [List.singleton_append, List.length_singleton, Nat.add_comm, hlFromUtf8.eq_def]
    dsimp only
    rw [toNat_byte (by omega), if_pos hlt, if_neg (byte_ne_zero (by omega) hv)]
    rfl
  | two hlow hhigh =>
    rw [two_eq hhigh, List.cons_append, List.singleton_append, List.length_singleton, Nat.add_comm, hlFromUtf8.eq_def]
    dsimp only
    rw [toNat_byte (by omega), if_neg (by omega), if_pos (by omega), toNat_byte (by omega), unit2_eq hhigh]
    rfl
  | three hlow hhigh hpart =>
    rw [three_eq hhigh, List.cons_append, List.cons_append, List.singleton_append, List.length_singleton,
      Nat.add_comm, hlFromUtf8.eq_def]
    dsimp only
    rw [toNat_byte (by omega), if_neg (by omega), if_neg (by omega), if_pos (by omega), toNat_byte (by omega),
      toNat_byte (by omega), unit3_eq hhigh]
    rfl
  | @four hi lo hhi hlo =>
    rw [four_eq (by omega), List.cons_append, List.cons_append, List.cons_append, List.singleton_append,
      show ([UInt16.ofNat (0xD800 + hi), UInt16.ofNat (0xDC00 + lo)] : List UInt16).length + room = room + 1 + 1 from
        Nat.add_comm 2 room, hlFromUtf8.eq_def]
    dsimp only
    rw [toNat_byte (by omega), if_neg (by omega), if_neg (by omega), if_neg (by omega), toNat_byte (by omega),
      toNat_byte (by omega), toNat_byte (by omega), lastPlanes_eq hhi hlo, highUnit_eq hlo, lowUnit_eq hlo]
    rfl

def utf16Text (l : List Char) : List UInt16 := l.flatMap utf16

def utf8Text (l : List Char) : List UInt8 := l.flatMap String.utf8EncodeChar

def NoZero (l : List Char) : Prop := ∀ c ∈ l, c.toNat ≠ 0

theorem writeUtf8_text (h : NoZero l) (terminated : Bool) (rest : List UInt16) :
    writeUtf8 terminated (utf16Text l ++ rest) = (writeUtf8 terminated rest).map (utf8Text l ++ ·) := by
  induction l with
  | nil => exact (Option.map_id' ..).symm
  | cons c l ih =>
    have htail : NoZero l := fun d hd => h d (List.mem_cons_of_mem c hd)
    rw [utf16Text, utf8Text, List.flatMap_cons, List.flatMap_cons, List.append_assoc,
      writeUtf8_char (form c) (h c List.mem_cons_self), ← utf16Text, ih htail, Option.map_map]
    simp only [Function.comp_def, List.append_assoc]
    rfl

theorem countUtf8_text (h : NoZero l) (terminated : Bool) (rest : List UInt16) :
    countUtf8 terminated (utf16Text l ++ rest) = (countUtf8 terminated rest).map ((utf8Text l).length + ·) := by
  induction l with
  | nil =>
    simp only [utf16Text, utf8Text, List.flatMap_nil, List.nil_append, List.length_nil, Nat.zero_add, Option.map_id']
  | cons c l ih =>
    have htail : NoZero l := fun d hd => h d (List.mem_cons_of_mem c hd)
    rw [utf16Text, utf8Text, List.flatMap_cons, List.flatMap_cons, List.append_assoc, List.length_append,
      countUtf8_char (form c) (h c List.mem_cons_self), ← utf16Text, ih htail, Option.map_map]
    simp only [Function.comp_def, Nat.add_assoc]
    rfl

theorem utostrLoop_text (h : NoZero l) {room : Nat} (hroom : (utf8Text l).length ≤ room) :
    utostrLoop room (utf16Text l ++ [0]) = some (utf8Text l) := by
  induction l generalizing room with
  | nil =>
    rw [utf16Text, List.flatMap_nil, List.nil_append, utostrLoop.eq_def]
    dsimp only
    split <;> rfl
  | cons c l ih =>
    have htail : NoZero l := fun d hd => h d (List.mem_cons_of_mem c hd)
    rw [utf8Text, List.flatMap_cons, List.length_append, ← utf8Text] at hroom
    rw [utf16Text, utf8Text, List.flatMap_cons, List.flatMap_cons, List.append_assoc,
      utostrLoop_char (form c) (h c List.mem_cons_self) (by omega), ← utf16Text, ih htail (by omega)]
    rfl

theorem hlUtf8Length_text (h : NoZero l) :
    hlUtf8Length (utf8Text l ++ [0]) = some (utf16Text l).length := by
  induction l with
  | nil => rfl
  | cons c l ih =>
    have htail : NoZero l := fun d hd => h d (List.mem_cons_of_mem c hd)
    rw [utf16Text, utf8Text, List.flatMap_cons, List.flatMap_cons, List.append_assoc, List.length_append,
      hlUtf8Length_char (form c) (h c List.mem_cons_self), ← utf8Text, ih htail]
    rfl

theorem hlFromUtf8_text (h : NoZero l) (rest : List UInt8) :
    hlFromUtf8 (utf16Text l).length (utf8Text l ++ rest) = some (utf16Text l, (utf16Text l).length) := by
  induction l with
  | nil => rfl
  | cons c l ih =>
    have htail : NoZero l := fun d hd => h d (List.mem_cons_of_mem c hd)
    rw [utf16Text, utf8Text, List.flatMap_cons, List.flatMap_cons, List.append_assoc, List.length_append,
      hlFromUtf8_char (form c) (h c List.mem_cons_self), ← utf8Text, ← utf16Text, ih htail]
    rfl

/-- What the conversions make of a text. A length of zero is not given for the empty one. -/
structure RoundTrip (l : List Char) : Prop where
  utf8 : hlUtf16ToUtf8Sized true (utf16Text l ++ [0]) = some (utf8Text l ++ [0], ((utf8Text l).length : Int))
  utf8Length : l ≠ [] →
    hlUtf16ToUtf8Sized false (utf16Text l) = some (utf8Text l, ((utf8Text l).length : Int))
  utf16 : hlUtf8ToUtf16 (utf8Text l ++ [0]) = some (utf16Text l, (2 * (utf16Text l).length : Int))
  count : (ustrlenUtf8 (utf16Text l ++ [0])).map (fun n : Nat => Int.bmod n (2 ^ 32)) = some ((utf8Text l).length : Int)
  buffer : ∀ outSize < 2 ^ 31, (utf8Text l).length < outSize →
    utostr outSize (utf16Text l ++ [0]) = some (utf8Text l ++ [0], (utf8Text l).length)

/-- The two texts and their terminators fit into blocks. -/
def Fits (l : List Char) : Prop :=
  (utf8Text l).length + 1 ≤ largestBlock ∧ 2 * ((utf16Text l).length + 1) ≤ largestBlock

theorem bmod_of_le {n : Int} (hnonneg : 0 ≤ n) (hle : n ≤ largestBlock) : n.bmod (2 ^ 32) = n := by
  unfold largestBlock at hle
  exact Int.bmod_eq_of_le (by omega) (by omega)

theorem le_of_hlGcAllocNoptr {size room : Int} (h : hlGcAllocNoptr size = some room) : room ≤ largestBlock := by
  unfold hlGcAllocNoptr at h
  split at h
  · rename_i hsize
    cases h
    exact hsize.2
  · cases h

theorem hlUtf16ToUtf8Sized_of_fits {terminated : Bool} {str : List UInt16} {out : List UInt8} {n : Nat}
    (hloops : hlUtf16ToUtf8 terminated str = some (out, n)) (hfits : (n + 1 : Int) ≤ largestBlock)
    (hout : out.length ≤ n + 1) : hlUtf16ToUtf8Sized terminated str = some (out, (n : Int)) := by
  have hsize : Int.bmod n (2 ^ 32) = n := bmod_of_le (by omega) (by omega)
  refine Option.bind_eq_some_iff.mpr ⟨(out, n), hloops, ?_⟩
  dsimp only
  rw [hsize, bmod_of_le (by omega) hfits, hlGcAllocNoptr, if_pos ⟨by omega, hfits⟩]
  exact if_pos (by omega)

theorem roundTrip_of_fits (h : NoZero l) (hfits : Fits l) : RoundTrip l where
  utf8 := by
    have hloops : hlUtf16ToUtf8 true (utf16Text l ++ [0]) = some (utf8Text l ++ [0], (utf8Text l).length) := by
      rw [hlUtf16ToUtf8, countUtf8_text h, writeUtf8_text h]
      rfl
    exact hlUtf16ToUtf8Sized_of_fits hloops hfits.1 (by rw [List.length_append, List.length_singleton])
  utf8Length _ := by
    have hcount := countUtf8_text h false []
    have hwrite := writeUtf8_text h false []
    rw [List.append_nil] at hcount hwrite
    have hloops : hlUtf16ToUtf8 false (utf16Text l) = some (utf8Text l, (utf8Text l).length) := by
      rw [hlUtf16ToUtf8, hcount, hwrite]
      exact congrArg some (congrArg₂ Prod.mk (List.append_nil _) (Nat.add_zero _))
    exact hlUtf16ToUtf8Sized_of_fits hloops hfits.1 (Nat.le_succ _)
  utf16 := by
    have hroom := hfits.2
    have hlength : Int.bmod (utf16Text l).length (2 ^ 32) = (utf16Text l).length := bmod_of_le (by omega) (by omega)
    refine Option.bind_eq_some_iff.mpr ⟨_, hlUtf8Length_text h, ?_⟩
    dsimp only
    rw [hlength, bmod_of_le (by omega) hroom, hlGcAllocNoptr, if_pos ⟨by omega, hroom⟩,
      Int.toNat_natCast]
    refine Option.bind_eq_some_iff.mpr ⟨_, rfl, Option.bind_eq_some_iff.mpr ⟨_, hlFromUtf8_text h _, ?_⟩⟩
    dsimp only
    rw [bmod_of_le (by omega) (by omega), if_pos (by omega)]
  count := by
    have hroom := hfits.1
    have hcount : countUtf8 true (utf16Text l ++ [0]) = some (utf8Text l).length := countUtf8_text h true [0]
    rw [ustrlenUtf8_eq, hcount, Option.map_some, bmod_of_le (by omega) (by omega)]
  buffer outSize _ hsize := by
    rw [utostr, if_neg (by omega), utostrLoop_text h (by omega)]
    rfl

/-- A text without zeros goes to UTF-8 and back exactly when both of its forms fit into blocks. -/
theorem roundTrip_iff (l : List Char) (h : NoZero l) : RoundTrip l ↔ Fits l := by
  refine ⟨fun hround => ⟨?_, ?_⟩, roundTrip_of_fits h⟩
  · obtain ⟨⟨out, n⟩, -, hrun⟩ := Option.bind_eq_some_iff.mp hround.utf8
    obtain ⟨room, hroom, hrun⟩ := Option.bind_eq_some_iff.mp hrun
    split at hrun
    · rename_i hle
      have hout : out = utf8Text l ++ [0] := congrArg Prod.fst (Option.some.inj hrun)
      rw [hout, List.length_append, List.length_singleton] at hle
      exact Int.le_trans hle (le_of_hlGcAllocNoptr hroom)
    · cases hrun
  · obtain ⟨n, -, hrun⟩ := Option.bind_eq_some_iff.mp hround.utf16
    obtain ⟨room, hroom, hrun⟩ := Option.bind_eq_some_iff.mp hrun
    obtain ⟨r, -, hrun⟩ := Option.bind_eq_some_iff.mp hrun
    split at hrun
    · rename_i hle
      have hunits : r.1 = utf16Text l := congrArg Prod.fst (Option.some.inj hrun)
      rw [hunits] at hle
      exact Int.le_trans hle (le_of_hlGcAllocNoptr hroom)
    · cases hrun

/-- A character of each length. -/
theorem roundTrip_lengths : RoundTrip [Char.ofNat 0x61, Char.ofNat 0xE9, Char.ofNat 0x20AC, Char.ofNat 0x1F600] :=
  (roundTrip_iff _ (by simp [NoZero])).mpr ⟨by decide, by decide⟩

/-- A third of `2 ^ 31` characters of three bytes. -/
def manyEuros : List Char := List.replicate 715827883 (Char.ofNat 0x20AC)

theorem manyEuros_not_roundTrip : NoZero manyEuros ∧ ¬RoundTrip manyEuros := by
  have hzero : NoZero manyEuros := by
    intro c hc
    rw [(List.mem_replicate.mp hc).2]
    decide
  refine ⟨hzero, fun hround => ?_⟩
  have hfits := ((roundTrip_iff manyEuros hzero).mp hround).1
  have hlength : (utf8Text manyEuros).length = 715827883 * 3 := by
    rw [utf8Text, manyEuros, List.length_flatMap, List.map_replicate, List.sum_replicate_nat]
    rfl
  rw [hlength, largestBlock] at hfits
  omega

end HashLink.Text
