import Mathlib.Data.Nat.Bitwise

/-! UTF-16 of the characters, the bytes of UTF-8 with the bit operations that programs use for them, and the four
ranges of characters in which both have the same form. -/

namespace Utf

theorem or_low {a b : Nat} (i : Nat) (hb : b < 2 ^ i) : 2 ^ i * a ||| b = 2 ^ i * a + b :=
  (Nat.two_pow_add_eq_or_of_lt hb a).symm

theorem and_low (a i : Nat) : a &&& (2 ^ i - 1) = a % 2 ^ i := Nat.and_two_pow_sub_one_eq_mod a i

theorem tail_eq (a : Nat) : 0x80 ||| a &&& 63 = 0x80 + a % 64 := by
  have hand := and_low a 6
  have hor := or_low (a := 2) 6 (Nat.mod_lt a (show 0 < 2 ^ 6 by decide))
  rw [show 63 = 2 ^ 6 - 1 from rfl, hand]
  exact hor

/-- The bytes of a character of two bytes. -/
def two (v : Nat) : List UInt8 := [UInt8.ofNat (0xC0 ||| v >>> 6), UInt8.ofNat (0x80 ||| v &&& 63)]

def three (v : Nat) : List UInt8 :=
  [UInt8.ofNat (0xE0 ||| v >>> 12), UInt8.ofNat (0x80 ||| v >>> 6 &&& 63), UInt8.ofNat (0x80 ||| v &&& 63)]

def four (v : Nat) : List UInt8 :=
  [UInt8.ofNat (0xF0 ||| v >>> 18), UInt8.ofNat (0x80 ||| v >>> 12 &&& 63), UInt8.ofNat (0x80 ||| v >>> 6 &&& 63),
    UInt8.ofNat (0x80 ||| v &&& 63)]

theorem two_eq {v : Nat} (hv : v < 0x800) : two v = [UInt8.ofNat (0xC0 + v / 64), UInt8.ofNat (0x80 + v % 64)] := by
  have hhead := or_low (a := 3) 6 (show v / 64 < 2 ^ 6 by omega)
  rw [two, tail_eq, Nat.shiftRight_eq_div_pow]
  exact congrArg (fun n => [UInt8.ofNat n, _]) hhead

theorem three_eq {v : Nat} (hv : v < 0x10000) : three v =
    [UInt8.ofNat (0xE0 + v / 4096), UInt8.ofNat (0x80 + v / 64 % 64), UInt8.ofNat (0x80 + v % 64)] := by
  have hhead := or_low (a := 14) 4 (show v / 4096 < 2 ^ 4 by omega)
  rw [three, tail_eq, tail_eq, Nat.shiftRight_eq_div_pow, Nat.shiftRight_eq_div_pow]
  exact congrArg (fun n => [UInt8.ofNat n, _, _]) hhead

theorem four_eq {v : Nat} (hv : v < 0x110000) : four v = [UInt8.ofNat (0xF0 + v / 262144),
    UInt8.ofNat (0x80 + v / 4096 % 64), UInt8.ofNat (0x80 + v / 64 % 64), UInt8.ofNat (0x80 + v % 64)] := by
  have hhead := or_low (a := 15) 4 (show v / 262144 < 2 ^ 4 by omega)
  rw [four, tail_eq, tail_eq, tail_eq, Nat.shiftRight_eq_div_pow, Nat.shiftRight_eq_div_pow, Nat.shiftRight_eq_div_pow]
  exact congrArg (fun n => [UInt8.ofNat n, _, _, _]) hhead

def utf16 (c : Char) : List UInt16 :=
  if c.toNat < 0x10000 then [UInt16.ofNat c.toNat]
  else [UInt16.ofNat (0xD800 + (c.toNat - 0x10000) / 1024), UInt16.ofNat (0xDC00 + (c.toNat - 0x10000) % 1024)]

/-- The forms of a character: its number, its units and its bytes. -/
inductive Form : Nat → List UInt16 → List UInt8 → Prop where
  | one {v : Nat} (hv : v < 0x80) : Form v [UInt16.ofNat v] [UInt8.ofNat v]
  | two {v : Nat} (hlow : 0x80 ≤ v) (hhigh : v < 0x800) : Form v [UInt16.ofNat v] (two v)
  | three {v : Nat} (hlow : 0x800 ≤ v) (hhigh : v < 0x10000) (hpart : ¬(0xD800 ≤ v ∧ v ≤ 0xDFFF)) :
      Form v [UInt16.ofNat v] (three v)
  | four {hi lo : Nat} (hhi : hi < 0x400) (hlo : lo < 0x400) : Form (0x10000 + (hi * 1024 + lo))
      [UInt16.ofNat (0xD800 + hi), UInt16.ofNat (0xDC00 + lo)] (four (0x10000 + (hi * 1024 + lo)))

theorem form (c : Char) : Form c.toNat (utf16 c) (String.utf8EncodeChar c) := by
  have hvalid : c.toNat < 0xD800 ∨ 0xDFFF < c.toNat ∧ c.toNat < 0x110000 := c.valid
  have hval : c.val.toNat = c.toNat := rfl
  rw [utf16, String.utf8EncodeChar, hval]
  by_cases h₁ : c.toNat ≤ 0x7F
  · rw [if_pos (by omega), if_pos h₁]
    exact .one (by omega)
  by_cases h₂ : c.toNat ≤ 0x7FF
  · rw [if_pos (by omega), if_neg h₁, if_pos h₂, show c.toNat / 64 % 32 = c.toNat / 64 by omega, Nat.add_comm _ 0xC0,
      Nat.add_comm _ 0x80, ← two_eq (by omega)]
    exact .two (by omega) (by omega)
  by_cases h₃ : c.toNat ≤ 0xFFFF
  · rw [if_pos (by omega), if_neg h₁, if_neg h₂, if_pos h₃, show c.toNat / 4096 % 16 = c.toNat / 4096 by omega,
      Nat.add_comm _ 0xE0, Nat.add_comm _ 0x80, Nat.add_comm _ 0x80, ← three_eq (by omega)]
    exact .three (by omega) (by omega) (by omega)
  · rw [if_neg (by omega), if_neg h₁, if_neg h₂, if_neg h₃, show c.toNat / 262144 % 8 = c.toNat / 262144 by omega,
      Nat.add_comm _ 0xF0, Nat.add_comm _ 0x80, Nat.add_comm _ 0x80, Nat.add_comm _ 0x80, ← four_eq (by omega)]
    have hsplit : c.toNat = 0x10000 + ((c.toNat - 0x10000) / 1024 * 1024 + (c.toNat - 0x10000) % 1024) := by omega
    have hform := Form.four (show (c.toNat - 0x10000) / 1024 < 0x400 by omega)
      (show (c.toNat - 0x10000) % 1024 < 0x400 by omega)
    rwa [← hsplit] at hform

end Utf
