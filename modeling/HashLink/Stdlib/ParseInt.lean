import Mathlib.Algebra.Order.Ring.Int
import Mathlib.Data.List.Basic
import Mathlib.Data.List.TakeWhile
import Mathlib.Tactic.Ring

/-! `hl_parse_int` of `bytes.c` and `utoi` of `ucs2.c`. A text is the list of its units before the terminator. -/

namespace HashLink.ParseInt

def isSpaceChar (c : UInt16) : Bool := c = 32 || (8 < c && c < 14)

def isDigit (c : UInt16) : Bool := 48 ≤ c && c ≤ 57

def plus : UInt16 := 43

def minus : UInt16 := 45

def signOf : List UInt16 → List UInt16
  | c :: _ => if c = minus ∨ c = plus then [c] else []
  | [] => []

/-- `has_hex_prefix`. A unit after the text is the terminator. -/
def hasHexPrefix (c : List UInt16) (len : Int) (isSigned : Bool) : Bool :=
  if isSigned then 3 ≤ len && c.getD 1 0 = 48 && (c.getD 2 0 = 120 || c.getD 2 0 = 88)
  else 2 ≤ len && c.getD 0 0 = 48 && (c.getD 1 0 = 120 || c.getD 1 0 = 88)

def hexLoop (h : BitVec 32) : List UInt16 → BitVec 32
  | [] => h
  | k :: c =>
    if 48 ≤ k && k ≤ 57 then hexLoop (h <<< 4 ||| BitVec.ofNat 32 (k.toNat - 48)) c
    else if 65 ≤ k && k ≤ 70 then hexLoop (h <<< 4 ||| BitVec.ofNat 32 (k.toNat - 65 + 10)) c
    else if 97 ≤ k && k ≤ 102 then hexLoop (h <<< 4 ||| BitVec.ofNat 32 (k.toNat - 97 + 10)) c
    else h

/-- The width of `long`. -/
inductive LongWidth where
  | long32
  | long64
  deriving DecidableEq, Repr

def LongWidth.limit : LongWidth → Int
  | long32 => 2 ^ 31
  | long64 => 2 ^ 63

def digitsValue (digits : List UInt16) : Nat := digits.foldl (fun n c => 10 * n + (c.toNat - 48)) 0

def signed (sign : List UInt16) (n : Nat) : Int := if sign = [minus] then -(n : Int) else n

/-- `strtol` in base ten: the number, brought into the range of `long`, and how many characters are used. -/
def strtol (long : LongWidth) (buf : List UInt16) : Int × Nat :=
  let spaces := buf.takeWhile isSpaceChar
  let sign := signOf (buf.drop spaces.length)
  let digits := (buf.drop (spaces.length + sign.length)).takeWhile isDigit
  if digits = [] then (0, 0)
  else (max (-long.limit) (min (long.limit - 1) (signed sign (digitsValue digits))),
    spaces.length + sign.length + digits.length)

/-- The loop of `utoi`, which copies at most so many digits. -/
def copyDigits : Nat → List UInt16 → List UInt16
  | n + 1, c :: str => if isDigit c then c :: copyDigits n str else []
  | _, _ => []

/-- `utoi`: the number as an `int`, and how many units are used. -/
def utoi (long : LongWidth) (str : List UInt16) : BitVec 32 × Nat :=
  let sign := signOf str
  let result := strtol long (sign ++ copyDigits (16 - sign.length) (str.drop sign.length))
  (BitVec.ofInt 32 result.1, result.2)

/-- `hl_parse_int`, of a text that is said to have `len` units. -/
def hlParseInt (long : LongWidth) (str : List UInt16) (len : Int) : Option (BitVec 32) :=
  let spaces := str.takeWhile isSpaceChar
  let c := str.drop spaces.length
  let sign := signOf c
  if hasHexPrefix c (len - spaces.length) (sign ≠ []) then
    let h := hexLoop 0 (c.drop (sign.length + 2))
    some (if sign = [minus] then -h else h)
  else
    let result := utoi long c
    if result.2 = 0 then none else some result.1

/-- A text of white space, a sign and decimal digits. -/
structure IsDecimal (str spaces sign digits : List UInt16) : Prop where
  text : str = spaces ++ (sign ++ digits)
  allSpaces : ∀ c ∈ spaces, isSpaceChar c
  oneSign : sign = [] ∨ sign = [plus] ∨ sign = [minus]
  allDigits : ∀ c ∈ digits, isDigit c
  someDigit : digits ≠ []

def Denotes (str : List UInt16) (v : Int) : Prop :=
  ∃ spaces sign digits, IsDecimal str spaces sign digits ∧ v = signed sign (digitsValue digits)

def DigitFollows (str : List UInt16) : Prop :=
  ∃ d, ((str.dropWhile isSpaceChar).drop (signOf (str.dropWhile isSpaceChar)).length).head? = some d ∧ isDigit d

theorem signOf_cases (str : List UInt16) : signOf str = [] ∨ signOf str = [plus] ∨ signOf str = [minus] := by
  cases str with
  | nil => exact Or.inl rfl
  | cons c str =>
    rw [signOf]
    split
    · next h => exact Or.inr (h.symm.imp (congrArg (fun c => [c])) (congrArg fun c => [c]))
    · exact Or.inl rfl

theorem isSpaceChar_of_isDigit {c : UInt16} (h : isDigit c) : isSpaceChar c = false := by
  simp only [isDigit, isSpaceChar, Bool.and_eq_true, decide_eq_true_eq, Bool.or_eq_false_iff, Bool.and_eq_false_iff,
    decide_eq_false_iff_not, UInt16.le_iff_toNat_le, UInt16.lt_iff_toNat_lt, ← UInt16.toNat_inj] at *
  have h32 : (32 : UInt16).toNat = 32 := rfl
  have h48 : (48 : UInt16).toNat = 48 := rfl
  have h14 : (14 : UInt16).toNat = 14 := rfl
  omega

theorem ne_sign_of_isDigit {c : UInt16} (h : isDigit c) : ¬(c = minus ∨ c = plus) := by
  simp only [isDigit, Bool.and_eq_true, decide_eq_true_eq, UInt16.le_iff_toNat_le] at h
  rintro (rfl | rfl) <;> simp [minus, plus] at h

theorem copyDigits_eq (n : Nat) (str : List UInt16) : copyDigits n str = (str.takeWhile isDigit).take n := by
  induction n generalizing str with
  | zero => cases str <;> rfl
  | succ n ih =>
    cases str with
    | nil => rfl
    | cons c str =>
      rw [copyDigits]
      split
      · next h => rw [List.takeWhile_cons_of_pos h, List.take_succ_cons, ih]
      · next h => rw [List.takeWhile_cons_of_neg h, List.take_nil]

variable {sign digits : List UInt16}

theorem signOf_append (hsign : sign = [] ∨ sign = [plus] ∨ sign = [minus]) (hdigits : ∀ c ∈ digits, isDigit c) :
    signOf (sign ++ digits) = sign := by
  rcases hsign with rfl | rfl | rfl
  · cases digits with
    | nil => rfl
    | cons c digits => exact if_neg (ne_sign_of_isDigit (hdigits c List.mem_cons_self))
  · rfl
  · rfl

theorem takeWhile_space_append (hsign : sign = [] ∨ sign = [plus] ∨ sign = [minus])
    (hdigits : ∀ c ∈ digits, isDigit c) : (sign ++ digits).takeWhile isSpaceChar = [] := by
  rcases hsign with rfl | rfl | rfl
  · cases digits with
    | nil => rfl
    | cons c digits =>
      rw [List.nil_append, List.takeWhile_cons_of_neg]
      rw [isSpaceChar_of_isDigit (hdigits c List.mem_cons_self)]
      exact Bool.false_ne_true
  · rfl
  · rfl

theorem takeWhile_isDigit (h : ∀ c ∈ digits, isDigit c) : digits.takeWhile isDigit = digits :=
  List.takeWhile_eq_self_iff.2 h

theorem strtol_append (long : LongWidth) (hsign : sign = [] ∨ sign = [plus] ∨ sign = [minus])
    (hdigits : ∀ c ∈ digits, isDigit c) :
    strtol long (sign ++ digits) = if digits = [] then (0, 0) else
      (max (-long.limit) (min (long.limit - 1) (signed sign (digitsValue digits))), sign.length + digits.length) := by
  simp only [strtol, takeWhile_space_append hsign hdigits]
  rw [List.length_nil, List.drop_zero, signOf_append hsign hdigits, Nat.zero_add, List.drop_left,
    takeWhile_isDigit hdigits]

/-- The digits that `utoi` converts. -/
def kept (str : List UInt16) : List UInt16 :=
  ((str.drop (signOf str).length).takeWhile isDigit).take (16 - (signOf str).length)

theorem isDigit_of_mem_kept {str : List UInt16} : ∀ c ∈ kept str, isDigit c := fun _ hc =>
  List.mem_takeWhile_imp (List.mem_of_mem_take hc)

theorem utoi_eq (long : LongWidth) (str : List UInt16) : utoi long str = if kept str = [] then (0, 0) else
    (BitVec.ofInt 32 (max (-long.limit) (min (long.limit - 1) (signed (signOf str) (digitsValue (kept str))))),
      (signOf str).length + (kept str).length) := by
  rw [utoi, copyDigits_eq]
  change (BitVec.ofInt 32 (strtol long (signOf str ++ kept str)).1, (strtol long (signOf str ++ kept str)).2) = _
  rw [strtol_append long (signOf_cases str) isDigit_of_mem_kept]
  split <;> rfl

theorem drop_spaces (str : List UInt16) : str.drop (str.takeWhile isSpaceChar).length = str.dropWhile isSpaceChar := by
  have happend : str.takeWhile isSpaceChar ++ str.dropWhile isSpaceChar = str := List.takeWhile_append_dropWhile
  calc str.drop (str.takeWhile isSpaceChar).length
      = (str.takeWhile isSpaceChar ++ str.dropWhile isSpaceChar).drop (str.takeWhile isSpaceChar).length := by
        rw [happend]
    _ = str.dropWhile isSpaceChar := List.drop_left

theorem hlParseInt_eq (long : LongWidth) (str : List UInt16) (len : Int) : hlParseInt long str len =
    if hasHexPrefix (str.dropWhile isSpaceChar) (len - (str.takeWhile isSpaceChar).length)
        (signOf (str.dropWhile isSpaceChar) ≠ []) then
      let h := hexLoop 0 ((str.dropWhile isSpaceChar).drop ((signOf (str.dropWhile isSpaceChar)).length + 2))
      some (if signOf (str.dropWhile isSpaceChar) = [minus] then -h else h)
    else if (utoi long (str.dropWhile isSpaceChar)).2 = 0 then none
    else some (utoi long (str.dropWhile isSpaceChar)).1 := by
  rw [hlParseInt]
  dsimp only
  rw [drop_spaces]

theorem length_signOf_le (str : List UInt16) : (signOf str).length ≤ 1 := by
  rcases signOf_cases str with h | h | h <;> rw [h] <;> decide

theorem kept_ne_nil_iff (str : List UInt16) : kept (str.dropWhile isSpaceChar) ≠ [] ↔ DigitFollows str := by
  have hsign := length_signOf_le (str.dropWhile isSpaceChar)
  rw [DigitFollows, kept]
  cases (str.dropWhile isSpaceChar).drop (signOf (str.dropWhile isSpaceChar)).length with
  | nil => simp
  | cons d rest =>
    obtain ⟨n, hn⟩ : ∃ n, 16 - (signOf (str.dropWhile isSpaceChar)).length = n + 1 := 
      ⟨15 - (signOf (str.dropWhile isSpaceChar)).length, by omega⟩
    rw [hn]
    by_cases hd : isDigit d
    · rw [List.takeWhile_cons_of_pos hd, List.take_succ_cons]
      exact iff_of_true (List.cons_ne_nil _ _) ⟨d, rfl, hd⟩
    · rw [List.takeWhile_cons_of_neg hd, List.take_nil]
      refine iff_of_false (fun h => h rfl) ?_
      rintro ⟨_, ⟨⟩, hdigit⟩
      exact hd hdigit

theorem digitFollows_of_hexPrefix {str : List UInt16} {len : Int}
    (h : hasHexPrefix (str.dropWhile isSpaceChar) len (signOf (str.dropWhile isSpaceChar) ≠ [])) :
    DigitFollows str := by
  have hzero : ((str.dropWhile isSpaceChar).drop (signOf (str.dropWhile isSpaceChar)).length).getD 0 0 = 48 := by
    rw [hasHexPrefix] at h
    rcases signOf_cases (str.dropWhile isSpaceChar) with hsign | hsign | hsign <;> rw [hsign] at h ⊢ <;>
      simp only [ne_eq, not_true, decide_false, Bool.false_eq_true, if_false, not_false_eq_true, List.cons_ne_nil,
        decide_true, if_true, Bool.and_eq_true, decide_eq_true_eq] at h <;>
      simpa [List.getD_eq_getElem?_getD, List.getElem?_drop] using h.1.2
  rw [List.getD_eq_getElem?_getD, ← List.head?_eq_getElem?] at hzero
  rw [DigitFollows]
  cases hhead : ((str.dropWhile isSpaceChar).drop (signOf (str.dropWhile isSpaceChar)).length).head? with
  | none => rw [hhead] at hzero; exact absurd hzero (by decide)
  | some d =>
    rw [hhead, Option.getD_some] at hzero
    exact ⟨d, rfl, hzero ▸ rfl⟩

theorem hlParseInt_eq_none_iff (long : LongWidth) (str : List UInt16) (len : Int) :
    hlParseInt long str len = none ↔ ¬DigitFollows str := by
  rw [hlParseInt_eq]
  split
  · next hhex => exact iff_of_false nofun (not_not_intro (digitFollows_of_hexPrefix hhex))
  · rw [← kept_ne_nil_iff, not_not, utoi_eq]
    by_cases hkept : kept (str.dropWhile isSpaceChar) = []
    · rw [if_pos hkept, if_pos rfl]
      exact iff_of_true rfl hkept
    · have hlength : (kept (str.dropWhile isSpaceChar)).length ≠ 0 := mt List.length_eq_zero_iff.1 hkept
      rw [if_neg hkept, if_neg (by dsimp only; omega)]
      exact iff_of_false nofun hkept

theorem digitsValue_append (l r : List UInt16) :
    digitsValue (l ++ r) = digitsValue l * 10 ^ r.length + digitsValue r := by
  have hfold : ∀ (r : List UInt16) (n : Nat), r.foldl (fun n c => 10 * n + (c.toNat - 48)) n =
      n * 10 ^ r.length + digitsValue r := by
    intro r
    induction r with
    | nil => intro n; simp [digitsValue]
    | cons c r ih =>
      intro n
      have hhead : digitsValue (c :: r) = (10 * 0 + (c.toNat - 48)) * 10 ^ r.length + digitsValue r :=
        ih (10 * 0 + (c.toNat - 48))
      rw [List.foldl_cons, ih, hhead, List.length_cons, Nat.pow_succ]
      ring
  rw [digitsValue, List.foldl_append, hfold]
  rfl

theorem digitsValue_take_eq_iff (digits : List UInt16) (n : Nat) :
    digitsValue (digits.take n) = digitsValue digits ↔ digits.length ≤ n ∨ digitsValue digits = 0 := by
  have hsplit := digitsValue_append (digits.take n) (digits.drop n)
  rw [List.take_append_drop] at hsplit
  rcases Nat.lt_or_ge n digits.length with hlt | hge
  · -- one digit at least is left out
    have hpow : 10 ≤ 10 ^ (digits.drop n).length :=
      Nat.le_self_pow (by rw [List.length_drop]; omega) 10
    have hmul := Nat.mul_le_mul_left (digitsValue (digits.take n)) hpow
    omega
  · rw [List.take_of_length_le hge]
    exact iff_of_true rfl (Or.inl hge)

theorem digitsValue_take_le (digits : List UInt16) (n : Nat) : digitsValue (digits.take n) ≤ digitsValue digits := by
  have hsplit := digitsValue_append (digits.take n) (digits.drop n)
  have hmul := Nat.le_mul_of_pos_right (digitsValue (digits.take n)) 
    (Nat.pow_pos (n := (digits.drop n).length) (show 0 < 10 by decide))
  rw [List.take_append_drop] at hsplit
  omega

theorem dropWhile_decimal {str spaces : List UInt16} (h : IsDecimal str spaces sign digits) :
    str.dropWhile isSpaceChar = sign ++ digits := by
  have hnone := takeWhile_space_append h.oneSign h.allDigits
  have happend : (sign ++ digits).takeWhile isSpaceChar ++ (sign ++ digits).dropWhile isSpaceChar = sign ++ digits :=
    List.takeWhile_append_dropWhile
  rw [hnone, List.nil_append] at happend
  rw [h.text, List.dropWhile_append_of_pos h.allSpaces, happend]

theorem hasHexPrefix_decimal (hsign : sign = [] ∨ sign = [plus] ∨ sign = [minus])
    (hdigits : ∀ c ∈ digits, isDigit c) (len : Int) (isSigned : Bool) :
    hasHexPrefix (sign ++ digits) len isSigned = false := by
  have hx : ∀ i, (sign ++ digits).getD i 0 ≠ 120 ∧ (sign ++ digits).getD i 0 ≠ 88 := by
    intro i
    rw [List.getD_eq_getElem?_getD]
    cases hget : (sign ++ digits)[i]? with
    | none => decide
    | some c =>
      rcases List.mem_append.1 (List.mem_of_getElem? hget) with hc | hc
      · rcases hsign with rfl | rfl | rfl
        · cases hc
        · rw [List.mem_singleton.1 hc]
          decide
        · rw [List.mem_singleton.1 hc]
          decide
      · have hdigit := hdigits c hc
        constructor <;> rintro rfl <;> exact absurd hdigit (by decide)
  unfold hasHexPrefix
  split
  · simp only [decide_eq_false (hx 2).1, decide_eq_false (hx 2).2, Bool.or_self, Bool.and_false]
  · simp only [decide_eq_false (hx 1).1, decide_eq_false (hx 1).2, Bool.or_self, Bool.and_false]

theorem signed_range {m n : Nat} (hle : m ≤ n) (hlow : -2 ^ 31 ≤ signed sign n)
    (hhigh : signed sign n < 2 ^ 31) : -2 ^ 31 ≤ signed sign m ∧ signed sign m < 2 ^ 31 := by
  unfold signed at *
  split at hlow
  · next hneg =>
    rw [if_pos hneg] at hhigh ⊢
    omega
  · next hneg =>
    rw [if_neg hneg] at hhigh ⊢
    omega

theorem signed_inj {m n : Nat} : signed sign m = signed sign n ↔ m = n := by
  unfold signed
  split <;> omega

theorem signed_eq_zero {n : Nat} : signed sign n = 0 ↔ n = 0 := by
  unfold signed
  split <;> omega

theorem hlParseInt_decimal (long : LongWidth) {str spaces : List UInt16} (len : Int)
    (h : IsDecimal str spaces sign digits) (hlow : -2 ^ 31 ≤ signed sign (digitsValue digits))
    (hhigh : signed sign (digitsValue digits) < 2 ^ 31) :
    hlParseInt long str len = some (BitVec.ofInt 32 (signed sign (digitsValue (digits.take (16 - sign.length))))) := by
  have hlength := length_signOf_le (sign ++ digits)
  have hsign := signOf_append h.oneSign h.allDigits
  rw [hsign] at hlength
  have hkept : kept (sign ++ digits) = digits.take (16 - sign.length) := by
    rw [kept, hsign, List.drop_left, takeWhile_isDigit h.allDigits]
  have hsome : digits.take (16 - sign.length) ≠ [] := by
    have hpos := List.length_pos_iff.2 h.someDigit
    rw [← List.length_pos_iff, List.length_take]
    omega
  -- the number of the digits that are kept is in the range as well
  have hle := digitsValue_take_le digits (16 - sign.length)
  have hclamp : max (-long.limit) (min (long.limit - 1) (signed sign (digitsValue (digits.take (16 - sign.length))))) =
      signed sign (digitsValue (digits.take (16 - sign.length))) := by
    have hlimit : (2 : Int) ^ 31 ≤ long.limit := by cases long <;> decide
    obtain ⟨hlow', hhigh'⟩ := signed_range hle hlow hhigh
    rw [min_eq_right (by omega), max_eq_right (by omega)]
  have hzero : sign.length + (digits.take (16 - sign.length)).length ≠ 0 := by
    have hpos := List.length_pos_iff.2 hsome
    omega
  rw [hlParseInt_eq, dropWhile_decimal h, hasHexPrefix_decimal h.oneSign h.allDigits, utoi_eq, hkept, if_neg hsome,
    hsign]
  simp only [Bool.false_eq_true, if_false, if_neg hzero, hclamp]

/-- The number is returned when the text denotes one that fits, and nothing is returned just when no digit follows the
white space and the sign. -/
structure ParsesRight (long : LongWidth) (str : List UInt16) (len : Int) : Prop where
  number : ∀ v, Denotes str v → -2 ^ 31 ≤ v → v < 2 ^ 31 → hlParseInt long str len = some (BitVec.ofInt 32 v)
  null : hlParseInt long str len = none ↔ ¬DigitFollows str

/-- At most sixteen units are converted, so more of them give the number only when it is zero. -/
theorem parsesRight_iff (long : LongWidth) (str : List UInt16) (len : Int) : ParsesRight long str len ↔
    ∀ v, Denotes str v → -2 ^ 31 ≤ v → v < 2 ^ 31 → (str.dropWhile isSpaceChar).length ≤ 16 ∨ v = 0 := by
  have heach : ∀ v, Denotes str v → -2 ^ 31 ≤ v → v < 2 ^ 31 →
      (hlParseInt long str len = some (BitVec.ofInt 32 v) ↔ (str.dropWhile isSpaceChar).length ≤ 16 ∨ v = 0) := by
    rintro _ ⟨spaces, sign, digits, h, rfl⟩ hlow hhigh
    obtain ⟨hlow', hhigh'⟩ := signed_range (digitsValue_take_le digits (16 - sign.length)) hlow hhigh
    have hlength := length_signOf_le (sign ++ digits)
    rw [signOf_append h.oneSign h.allDigits] at hlength
    have hfits : (str.dropWhile isSpaceChar).length ≤ 16 ↔ digits.length ≤ 16 - sign.length := by
      rw [dropWhile_decimal h, List.length_append]
      omega
    rw [hlParseInt_decimal long len h hlow hhigh, hfits, signed_eq_zero, ← digitsValue_take_eq_iff, Option.some.injEq]
    constructor
    · intro heq
      have hint := congrArg BitVec.toInt heq
      rw [BitVec.toInt_ofInt_eq_self (by decide) hlow' hhigh',
        BitVec.toInt_ofInt_eq_self (by decide) hlow hhigh] at hint
      exact signed_inj.1 hint
    · exact fun heq => by rw [heq]
  refine ⟨fun h v hv hlow hhigh => (heach v hv hlow hhigh).1 (h.number v hv hlow hhigh), fun h => ⟨?_, ?_⟩⟩
  · exact fun v hv hlow hhigh => (heach v hv hlow hhigh).2 (h v hv hlow hhigh)
  · exact hlParseInt_eq_none_iff long str len

/-- The text of the number one with sixteen zeros before it. -/
def paddedOne : List UInt16 := List.replicate 16 48 ++ [49]

/-- It is read as zero. -/
theorem paddedOne_not_parsesRight : ¬ParsesRight .long64 paddedOne 17 := by
  intro h
  have hone : Denotes paddedOne 1 :=
    ⟨[], [], paddedOne, ⟨rfl, nofun, Or.inl rfl, by simp [paddedOne, isDigit], by decide⟩, by decide⟩
  exact absurd (h.number 1 hone (by decide) (by decide)) (by decide)

end HashLink.ParseInt
