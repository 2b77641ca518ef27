import HashLink.Stdlib.FloatFormat
import Mathlib.Tactic.NormNum

/-! The text of a number denotes it, and it is in fixed notation for numbers of moderate size.

What is formatted of a printed number: the same number, in fixed notation from a millionth up to 21 digits before
the point. -/

namespace HashLink.FloatFormat

open ParseInt

def signOf (negative : Bool) : ℚ := if negative then -1 else 1

theorem shift_value (D k : Nat) {e e' : Int} (h : e' + k = e) : ((D * 10 ^ k : Nat) : ℚ) * 10 ^ e' = D * 10 ^ e := by
  have hten : (10 : ℚ) ≠ 0 := by norm_num
  rw [← h, zpow_add₀ hten, zpow_natCast]
  push_cast
  ring

section
variable {negative : Bool} {digits : List UInt16} {place : Int}

/-- What is known of the digits that are printed. -/
structure Digits (digits : List UInt16) : Prop where
  allDigits : ∀ c ∈ digits, isDigit c
  first : ∃ c l, digits = c :: l ∧ c ≠ zero
  length_le : digits.length ≤ 17

/-- A number that denotes what the digits do with so many of them before the point. -/
def Writes (negative : Bool) (digits : List UInt16) (place : Int) (n : Numeral) : Prop :=
  writeNumber negative digits place = some n.text ∧
    n.value = signOf negative * digitsValue digits * 10 ^ (place - digits.length)

variable {count : Nat}

/-- The digits without the zeros at the end. -/
structure Kept (digits : List UInt16) (count : Nat) : Prop where
  count_eq : trimCount digits digits.length = count
  pos : 1 ≤ count
  le : count ≤ digits.length
  zeros : digits = digits.take count ++ List.replicate (digits.length - count) zero

theorem Digits.kept (h : Digits digits) : Kept digits (trimCount digits digits.length) := by
  obtain ⟨c, l, hl, -⟩ := h.first
  have hlength : 1 ≤ digits.length := by
    rw [hl, List.length_cons]
    exact Nat.le_add_left ..
  obtain ⟨hpos, hle, hzeros⟩ := trimCount_spec digits hlength (Nat.le_refl _)
  rw [List.take_length] at hzeros
  exact ⟨rfl, hpos, hle, hzeros⟩

theorem Kept.value (h : Kept digits count) (place : Int) :
    (digitsValue digits : ℚ) * 10 ^ (place - digits.length) =
      digitsValue (digits.take count) * 10 ^ (place - count) := by
  have hle := h.le
  have hvalue : digitsValue digits = digitsValue (digits.take count) * 10 ^ (digits.length - count) := by
    rw [← digitsValue_append_zeros, ← h.zeros]
  rw [hvalue]
  exact shift_value _ _ (by omega)

theorem Kept.length_take (h : Kept digits count) : (digits.take count).length = count := by
  rw [List.length_take]
  exact Nat.min_eq_left h.le

theorem sign_eq : (if negative then append [] [minus] else some []) = some (if negative then [minus] else []) := by
  cases negative <;> rfl

theorem length_sign_le : (if negative then [minus] else []).length ≤ 1 := by
  cases negative <;> decide

theorem mem_take_isDigit (hd : Digits digits) {n : Nat} : ∀ c ∈ digits.take n, isDigit c := fun c hc =>
  hd.allDigits c (List.mem_of_mem_take hc)

theorem scientific_text {text : List UInt16} (hd : Digits digits) (h : Kept digits count) (hplace : place.natAbs < 2000)
    (htext : text.length ≤ 1) (hsci : place > 21 ∨ place ≤ -6) (hsign : text = if negative then [minus] else []) :
    writeNumber negative digits place = some (text ++ digits.take 1 ++
      (if 1 < count then point :: (digits.take count).drop 1 else []) ++ lowerE :: signedDecimal (place - 1)) := by
  have hlen := hd.length_le
  have hle := h.le
  have hexponent : (lowerE :: signedDecimal (place - 1)).length ≤ 6 := by
    have hdecimal : (decimal (place - 1).natAbs).length ≤ 3 + 1 := length_decimal_le (by omega)
    rw [signedDecimal, List.length_cons, List.length_cons]
    omega
  have hfirst : (digits.take 1).length ≤ 1 := List.length_take_le ..
  have hrest : ((digits.take count).drop 1).length ≤ 16 := by
    rw [List.length_drop, h.length_take]
    omega
  rw [writeNumber, h.count_eq, sign_eq, ← hsign]
  simp only [Option.bind_eq_bind, Option.bind_some]
  rw [if_pos hsci, append_eq (by omega)]
  simp only [Option.bind_some]
  split
  · rw [append_eq (by simp only [List.length_append, List.length_singleton]; omega)]
    simp only [Option.bind_some]
    rw [append_eq (by simp only [List.length_append, List.length_singleton]; omega)]
    simp only [Option.bind_some]
    rw [append_eq (by simp only [List.length_append, List.length_singleton]; omega)]
    simp only [Option.bind_some]
    rw [terminate_eq (by simp only [List.length_append, List.length_singleton]; omega)]
    simp only [List.append_assoc, List.singleton_append]
  · simp only [Option.bind_some]
    rw [append_eq (by simp only [List.length_append]; omega)]
    simp only [Option.bind_some]
    rw [terminate_eq (by simp only [List.length_append]; omega), List.append_nil]

theorem take_one_append (h : Kept digits count) : digits.take 1 ++ (digits.take count).drop 1 = digits.take count := by
  have hone : digits.take 1 = (digits.take count).take 1 := by
    rw [List.take_take, Nat.min_eq_left h.pos]
  rw [hone, List.take_append_drop]

theorem writes_scientific (hd : Digits digits) (h : Kept digits count) (hsci : place > 21 ∨ place ≤ -6)
    (hplace : place.natAbs < 2000) : ∃ n, Writes negative digits place n ∧ n.exponent ≠ none := by
  have hpos := h.pos
  have hle := h.le
  have hdigits : digits.take 1 ++ (if 1 < count then some ((digits.take count).drop 1) else none).getD [] =
      digits.take count := by
    split
    · exact take_one_append h
    · rw [Option.getD_none, List.append_nil, show count = 1 by omega]
  let m : Mantissa :=
    { negative := negative
      whole := digits.take 1
      fraction := if 1 < count then some ((digits.take count).drop 1) else none
      whole_ne_nil := by
        rw [← List.length_pos_iff, List.length_take]
        omega
      allDigits := by
        rw [hdigits]
        exact mem_take_isDigit hd }
  have hplaces : (m.fraction.getD []).length = count - 1 := by
    have hlength := congrArg List.length (show m.whole ++ m.fraction.getD [] = digits.take count from hdigits)
    rw [List.length_append, h.length_take, show m.whole.length = 1 from by rw [List.length_take]; omega] at hlength
    omega
  refine ⟨⟨m, some (place - 1)⟩, ⟨?_, ?_⟩, Option.some_ne_none _⟩
  · rw [scientific_text hd h hplace length_sign_le hsci rfl]
    have hfraction : (if 1 < count then some ((digits.take count).drop 1) else none).elim [] (point :: ·) =
        if 1 < count then point :: (digits.take count).drop 1 else [] := by
      split <;> rfl
    rw [← hfraction]
    rfl
  · change signOf negative * digitsValue m.digits * 10 ^ (place - 1 - (m.fraction.getD []).length) = _
    rw [hplaces, show m.digits = digits.take count from hdigits, mul_assoc, mul_assoc, h.value,
      show place - 1 - ((count - 1 : Nat) : Int) = place - count by omega]

theorem writes_small (hd : Digits digits) (h : Kept digits count) (hlow : -6 < place) (hplace : place ≤ 0) :
    ∃ n, Writes negative digits place n ∧ n.exponent = none := by
  have hlen := hd.length_le
  have hle := h.le
  let zeros := List.replicate (-place).toNat zero
  have hall : ∀ c ∈ [zero] ++ (zeros ++ digits.take count), isDigit c := by
    refine List.forall_mem_append.2 ⟨?_, List.forall_mem_append.2 ⟨?_, mem_take_isDigit hd⟩⟩
    · exact List.forall_mem_singleton.2 isDigit_zero
    · intro c hc
      rw [List.eq_of_mem_replicate hc]
      exact isDigit_zero
  let m : Mantissa := ⟨negative, [zero], some (zeros ++ digits.take count), List.cons_ne_nil _ _, hall⟩
  have hsign := @length_sign_le negative
  have htake := h.length_take
  refine ⟨⟨m, none⟩, ⟨?_, ?_⟩, rfl⟩
  · rw [writeNumber, h.count_eq, sign_eq]
    simp only [Option.bind_eq_bind, Option.bind_some]
    rw [if_neg (by omega), if_pos hplace, append_eq (by simp only [List.length_cons, List.length_nil]; omega)]
    simp only [Option.bind_some]
    rw [append_eq (by simp only [List.length_append, List.length_cons, List.length_nil, List.length_replicate]; omega)]
    simp only [Option.bind_some]
    rw [append_eq (by
      simp only [List.length_append, List.length_cons, List.length_nil, List.length_replicate, htake]; omega)]
    simp only [Option.bind_some]
    rw [terminate_eq (by
      simp only [List.length_append, List.length_cons, List.length_nil, List.length_replicate, htake]; omega)]
    change _ = some (_ ++ [zero] ++ (point :: (zeros ++ digits.take count)) ++ [])
    simp only [List.append_assoc, List.cons_append, List.nil_append, List.append_nil]
    rfl
  · have hvalue : digitsValue m.digits = digitsValue (digits.take count) := by
      change digitsValue (List.replicate (-place).toNat.succ zero ++ digits.take count) = _
      exact digitsValue_zeros_append ..
    have hplaces : (zeros ++ digits.take count).length = (-place).toNat + count := by
      rw [List.length_append, List.length_replicate, htake]
    change signOf negative * digitsValue m.digits * 10 ^ ((0 : Int) - (zeros ++ digits.take count).length) = _
    rw [hvalue, hplaces, mul_assoc, mul_assoc, h.value,
      show (0 : Int) - (((-place).toNat + count : Nat) : Int) = place - count by omega]

theorem writes_fixed (hd : Digits digits) (h : Kept digits count) (hlow : 0 < place) (hhigh : place ≤ 21) :
    ∃ n, Writes negative digits place n ∧ n.exponent = none := by
  obtain ⟨k, rfl⟩ := Int.eq_ofNat_of_zero_le (Int.le_of_lt hlow)
  have hlen := hd.length_le
  have hle := h.le
  have htake := h.length_take
  let padded := digits.take count ++ List.replicate (k - count) zero
  have hlength : padded.length = max count k := by
    rw [List.length_append, htake, List.length_replicate]
    omega
  have hpadded : ∀ c ∈ padded, isDigit c := by
    refine List.forall_mem_append.2 ⟨mem_take_isDigit hd, fun c hc => ?_⟩
    rw [List.eq_of_mem_replicate hc]
    exact isDigit_zero
  have hdigit : ∀ i (hi : i < padded.length), (if i < count then digits.getD i 0 else zero) = padded[i] := by
    intro i hi
    by_cases hlt : i < count
    · rw [if_pos hlt, List.getElem_append_left (by omega), List.getElem_take, List.getD_eq_getElem?_getD,
        List.getElem?_eq_getElem (by omega), Option.getD_some]
    · rw [if_neg hlt, List.getElem_append_right (by omega), List.getElem_replicate]
  have hwhole : (padded.take k).length = k := by
    rw [List.length_take]
    omega
  have hsplit : padded.take k ++ (if k < padded.length then some (padded.drop k) else none).getD [] = padded := by
    split
    · exact List.take_append_drop k padded
    · rw [Option.getD_none, List.append_nil, List.take_of_length_le (by omega)]
  let m : Mantissa :=
    { negative := negative
      whole := padded.take k
      fraction := if k < padded.length then some (padded.drop k) else none
      whole_ne_nil := by
        rw [← List.length_pos_iff, hwhole]
        omega
      allDigits := by
        rw [hsplit]
        exact hpadded }
  have hplaces : (m.fraction.getD []).length = max count k - k := by
    have hsum := congrArg List.length hsplit
    rw [List.length_append, hwhole] at hsum
    have hsum : k + (m.fraction.getD []).length = padded.length := hsum
    omega
  refine ⟨⟨m, none⟩, ⟨?_, ?_⟩, rfl⟩
  · have hfixed : (List.range (max count k)).flatMap (digitAt digits count k) =
        padded.take k ++ (if k < padded.length then some (padded.drop k) else none).elim [] (point :: ·) := by
      rw [fixed_eq (Nat.le_of_eq hlength.symm) hdigit, Nat.min_eq_right (Nat.le_max_right ..), ← hlength,
        List.take_length]
      split <;> rfl
    have hsign := @length_sign_le negative
    have hroom : ((if negative then [minus] else []) ++
        (List.range (max count k)).flatMap (digitAt digits count k)).length < 32 := by
      have hrest : ((if k < padded.length then some (padded.drop k) else none).elim [] (point :: ·)).length ≤
          padded.length - k + 1 := by
        split
        · rw [Option.elim_some, List.length_cons, List.length_drop]
        · exact Nat.zero_le _
      rw [hfixed, List.length_append, List.length_append, hwhole]
      omega
    rw [writeNumber, h.count_eq, sign_eq]
    simp only [Option.bind_eq_bind, Option.bind_some]
    rw [if_neg (by omega), if_neg (by omega), Int.toNat_natCast, putDigits_eq _ (Nat.le_of_lt hroom)]
    simp only [Option.bind_some]
    rw [terminate_eq hroom, hfixed, ← List.append_assoc]
    exact congrArg some (List.append_nil _).symm
  · have hexponent : (0 : Int) - ((max count k - k : Nat) : Int) + ((k - count : Nat) : Int) = k - count := by omega
    change signOf negative * digitsValue m.digits * 10 ^ ((0 : Int) - (m.fraction.getD []).length) = _
    rw [hplaces, show m.digits = padded from hsplit, mul_assoc, mul_assoc, h.value, digitsValue_append_zeros,
      shift_value _ _ hexponent]

end

theorem digit_ne {c : UInt16} (h : isDigit c) : c ≠ upperE ∧ c ≠ lowerE ∧ c ≠ point ∧ c ≠ minus := by
  have hbounds := digit_bounds h
  refine ⟨?_, ?_, ?_, ?_⟩ <;>
  · rintro rfl
    revert hbounds
    decide

theorem scanDigits_digits {xs : List UInt16} (hxs : ∀ c ∈ xs, isDigit c) (digits : List UInt16) (place : Int)
    (rest : List UInt16) (hroom : digits.length + xs.length ≤ 32) :
    scanDigits digits place (xs ++ rest) = scanDigits (digits ++ xs) place rest := by
  induction xs generalizing digits with
  | nil => rw [List.nil_append, List.append_nil]
  | cons c xs ih =>
    obtain ⟨hupper, hlower, hpoint, -⟩ := digit_ne (hxs c List.mem_cons_self)
    rw [List.length_cons] at hroom
    rw [List.cons_append, scanDigits, if_neg (not_or.2 ⟨hupper, hlower⟩), if_neg hpoint,
      append_eq (by rw [List.length_singleton]; omega), Option.bind_some,
      ih (fun d hd => hxs d (List.mem_cons_of_mem c hd)) (digits ++ [c])
        (by rw [List.length_append, List.length_singleton]; omega), List.append_assoc, List.singleton_append]

def exponentSign (e : Int) : List UInt16 := if e < 0 then [minus] else []

def printedExponent (e : Int) : List UInt16 := upperE :: (exponentSign e ++ decimal e.natAbs)

theorem strtol_exponent (long : LongWidth) {e : Int} (he : e.natAbs < 1000) :
    (BitVec.ofInt 32 (strtol long (exponentSign e ++ decimal e.natAbs)).1).toInt = e := by
  have hsign : exponentSign e = [] ∨ exponentSign e = [plus] ∨ exponentSign e = [minus] := by
    rw [exponentSign]
    split
    · exact .inr (.inr rfl)
    · exact .inl rfl
  have hsigned : signed (exponentSign e) e.natAbs = e := by
    rw [exponentSign]
    split
    · rw [signed, if_pos rfl]
      omega
    · rw [signed, if_neg nofun]
      omega
  have hlimit : 2 ^ 31 ≤ long.limit := by cases long <;> decide
  rw [strtol_append long hsign (isDigit_decimal _), if_neg (decimal_ne_nil _), digitsValue_decimal, hsigned,
    Int.min_eq_right (by omega), Int.max_eq_right (by omega)]
  exact BitVec.toInt_ofInt_eq_self (by decide) (by omega) (by omega)

theorem Printed.text_eq (p : Printed) : p.text = p.mantissa.sign ++ (p.mantissa.whole ++
    (p.mantissa.fraction.elim [] (point :: ·) ++ printedExponent p.exponent)) := by
  rw [Printed.text, Mantissa.text, List.append_assoc, List.append_assoc]
  rfl

theorem Printed.length_text (p : Printed) : p.text.length < 32 := by
  have hdigits := p.length_digits
  have hdecimal : (decimal p.exponent.natAbs).length ≤ 2 + 1 := length_decimal_le p.exponent_lt
  have hsign : p.mantissa.sign.length ≤ 1 := length_sign_le
  have hexponent : (exponentSign p.exponent).length ≤ 1 := by
    rw [exponentSign]
    split <;> decide
  have hfraction : (p.mantissa.fraction.elim [] (point :: ·)).length ≤ (p.mantissa.fraction.getD []).length + 1 := by
    cases p.mantissa.fraction with
    | none => exact Nat.zero_le _
    | some l => exact Nat.le_refl _
  rw [Mantissa.digits, List.length_append] at hdigits
  rw [p.text_eq]
  simp only [printedExponent, List.length_append, List.length_cons]
  omega

theorem isDigit_whole (m : Mantissa) : ∀ c ∈ m.whole, isDigit c := fun c hc =>
  m.allDigits c (List.mem_append_left _ hc)

theorem isDigit_fraction (m : Mantissa) : ∀ c ∈ m.fraction.getD [], isDigit c := fun c hc =>
  m.allDigits c (List.mem_append_right _ hc)

theorem Printed.negative_iff (p : Printed) : p.text.head? = some minus ↔ p.mantissa.negative = true := by
  obtain ⟨c, l, hl⟩ := List.exists_cons_of_ne_nil p.mantissa.whole_ne_nil
  have hc := (digit_ne (isDigit_whole p.mantissa c (hl ▸ List.mem_cons_self))).2.2.2
  rw [p.text_eq, Mantissa.sign, hl]
  cases p.mantissa.negative with
  | true => exact iff_of_true rfl rfl
  | false => exact iff_of_false (fun h => hc (Option.some.inj h)) Bool.false_ne_true

theorem Printed.point_mem (p : Printed) : point ∈ p.text ↔ p.mantissa.fraction.isSome := by
  have hdigits : ∀ {l : List UInt16}, (∀ c ∈ l, isDigit c) → point ∉ l := fun h hmem => (digit_ne (h _ hmem)).2.2.1 rfl
  have hsign : point ∉ p.mantissa.sign := by
    rw [Mantissa.sign]
    split <;> decide
  have hexponent : point ∉ exponentSign p.exponent := by
    rw [exponentSign]
    split <;> decide
  rw [p.text_eq]
  cases p.mantissa.fraction with
  | none =>
    refine iff_of_false ?_ nofun
    simp only [printedExponent, Option.elim_none, List.nil_append, List.mem_append, List.mem_cons, not_or]
    exact ⟨hsign, hdigits (isDigit_whole _), by decide, hexponent, hdigits (isDigit_decimal _)⟩
  | some l =>
    refine iff_of_true ?_ rfl
    simp only [Option.elim_some, List.cons_append, List.mem_append, List.mem_cons]
    exact .inr (.inr (.inl trivial))

theorem Printed.scan (p : Printed) :
    ∃ place, scanDigits [] 0 (p.mantissa.whole ++ (p.mantissa.fraction.elim [] (point :: ·) ++
      printedExponent p.exponent)) = some (p.mantissa.digits, place, printedExponent p.exponent) ∧
      (if p.mantissa.fraction.isSome then place else p.mantissa.digits.length) = p.mantissa.whole.length := by
  have hlen := p.length_digits
  have hfraction := isDigit_fraction p.mantissa
  have hend : ∀ digits place e, scanDigits digits place (printedExponent e) = some (digits, place, printedExponent e) :=
    fun digits place e => by rw [printedExponent, scanDigits, if_pos (Or.inl rfl)]
  rw [Mantissa.digits, List.length_append] at hlen
  rw [Mantissa.digits, scanDigits_digits (isDigit_whole _) [] 0 _ (by rw [List.length_nil]; omega), List.nil_append]
  cases hf : p.mantissa.fraction with
  | none =>
    refine ⟨0, ?_, ?_⟩
    · rw [Option.elim_none, List.nil_append, hend, Option.getD_none, List.append_nil]
    · rw [Option.getD_none, List.append_nil]
      rfl
  | some l =>
    rw [hf, Option.getD_some] at hfraction hlen
    refine ⟨p.mantissa.whole.length, ?_, rfl⟩
    rw [Option.elim_some, List.cons_append, scanDigits, if_neg (by decide), if_pos rfl,
      scanDigits_digits hfraction _ _ _ (by omega), hend, Option.getD_some]

/-- How many digits are before the point when there is no exponent. -/
def Printed.place (p : Printed) : Int := p.mantissa.whole.length + p.exponent

theorem formatPrinted_eq (long : LongWidth) (p : Printed) :
    formatPrinted long p.text = writeNumber p.mantissa.negative p.mantissa.digits p.place := by
  obtain ⟨place, hscan, hplace⟩ := p.scan
  have hcursor : (if decide (p.text.head? = some minus) = true then p.text.tail else p.text) = p.mantissa.whole ++
      (p.mantissa.fraction.elim [] (point :: ·) ++ printedExponent p.exponent) := by
    simp only [decide_eq_true_eq, p.negative_iff]
    rw [p.text_eq, Mantissa.sign]
    split <;> rfl
  have hnegative : decide (p.text.head? = some minus) = p.mantissa.negative := by
    rw [Bool.eq_iff_iff, decide_eq_true_iff]
    exact p.negative_iff
  rw [formatPrinted, terminate_eq p.length_text]
  simp only [Option.bind_eq_bind, Option.bind_some]
  rw [hcursor, hscan, hnegative]
  simp only [Option.bind_some, p.point_mem]
  rw [hplace, printedExponent, if_neg (List.cons_ne_nil _ _), List.tail_cons, strtol_exponent long p.exponent_lt]
  rfl

theorem Printed.digits (p : Printed) : Digits p.mantissa.digits where
  allDigits := p.mantissa.allDigits
  first := by
    obtain ⟨c, l, hl⟩ := List.exists_cons_of_ne_nil p.mantissa.whole_ne_nil
    refine ⟨c, l ++ p.mantissa.fraction.getD [], ?_, fun hc => p.first_ne_zero ?_⟩
    · rw [Mantissa.digits, hl, List.cons_append]
    · rw [hl, hc]
      rfl
  length_le := p.length_digits

theorem Printed.value_eq (p : Printed) : p.value =
    signOf p.mantissa.negative * digitsValue p.mantissa.digits * 10 ^ (p.place - p.mantissa.digits.length) := by
  have hexponent : p.place - p.mantissa.digits.length = p.exponent - (p.mantissa.fraction.getD []).length := by
    rw [Printed.place, Mantissa.digits, List.length_append]
    omega
  rw [hexponent]
  rfl

theorem abs_signOf (negative : Bool) : |signOf negative| = 1 := by
  cases negative <;> norm_num [signOf]

theorem Printed.abs_value (p : Printed) : (10 : ℚ) ^ (p.place - 1) ≤ |p.value| ∧ |p.value| < 10 ^ p.place := by
  have hten : (10 : ℚ) ≠ 0 := by norm_num
  have hlt := digitsValue_lt p.digits.allDigits
  obtain ⟨c, l, hl, hc⟩ := p.digits.first
  have hle := le_digitsValue (p.digits.allDigits c (hl ▸ List.mem_cons_self)) hc (l := l)
  rw [← hl] at hle
  have hlength : p.mantissa.digits.length = l.length + 1 := by rw [hl, List.length_cons]
  have hpos : (0 : ℚ) < 10 ^ (p.place - p.mantissa.digits.length) := by positivity
  have habs : |p.value| = (digitsValue p.mantissa.digits : ℚ) * 10 ^ (p.place - p.mantissa.digits.length) := by
    rw [p.value_eq, mul_assoc, abs_mul, abs_signOf, one_mul, abs_of_nonneg (by positivity)]
  rw [habs]
  constructor
  · have hsplit : (10 : ℚ) ^ (p.place - 1) = (10 ^ l.length : ℕ) * 10 ^ (p.place - p.mantissa.digits.length) := by
      push_cast
      rw [← zpow_natCast, ← zpow_add₀ hten]
      congr 1
      omega
    rw [hsplit]
    exact mul_le_mul_of_nonneg_right (by exact_mod_cast hle) hpos.le
  · have hsplit : (10 : ℚ) ^ p.place =
        (10 ^ p.mantissa.digits.length : ℕ) * 10 ^ (p.place - p.mantissa.digits.length) := by
      push_cast
      rw [← zpow_natCast, ← zpow_add₀ hten]
      congr 1
      omega
    rw [hsplit]
    exact mul_lt_mul_of_pos_right (by exact_mod_cast hlt) hpos

theorem Printed.fixed_iff (p : Printed) :
    (1 / 10 ^ 6 ≤ |p.value| ∧ |p.value| < 10 ^ 21) ↔ -6 < p.place ∧ p.place ≤ 21 := by
  obtain ⟨hlow, hhigh⟩ := p.abs_value
  have hone : (1 : ℚ) < 10 := by norm_num
  have hsix : (1 / 10 ^ 6 : ℚ) = 10 ^ (-6 : Int) := by norm_num
  have htop : (10 ^ 21 : ℚ) = 10 ^ (21 : Int) := by norm_num
  rw [hsix, htop]
  constructor
  · rintro ⟨hge, hlt⟩
    have hplace := (zpow_lt_zpow_iff_right₀ hone).1 (hge.trans_lt hhigh)
    have hplace' := (zpow_lt_zpow_iff_right₀ hone).1 (hlow.trans_lt hlt)
    omega
  · rintro ⟨hge, hle⟩
    exact ⟨((zpow_le_zpow_iff_right₀ hone).2 (by omega)).trans hlow,
      hhigh.trans_le ((zpow_le_zpow_iff_right₀ hone).2 hle)⟩

def NoDigit (rest : List UInt16) : Prop := ∀ c ∈ rest.head?, isDigit c = false

theorem takeWhile_digits {xs rest : List UInt16} (hxs : ∀ c ∈ xs, isDigit c) (hrest : NoDigit rest) :
    (xs ++ rest).takeWhile isDigit = xs := by
  rw [List.takeWhile_append_of_pos hxs]
  cases rest with
  | nil => exact List.append_nil xs
  | cons c rest =>
    rw [List.takeWhile_cons_of_neg (by rw [hrest c rfl]; exact Bool.false_ne_true), List.append_nil]

theorem digits_append_inj {xs ys rest rest' : List UInt16} (hxs : ∀ c ∈ xs, isDigit c) (hys : ∀ c ∈ ys, isDigit c)
    (hrest : NoDigit rest) (hrest' : NoDigit rest') (h : xs ++ rest = ys ++ rest') : xs = ys ∧ rest = rest' := by
  have heq : xs = ys := by
    rw [← takeWhile_digits hxs hrest, h, takeWhile_digits hys hrest']
  exact ⟨heq, List.append_cancel_left (heq ▸ h)⟩

theorem signedDecimal_injective {a b : Int} (h : signedDecimal a = signedDecimal b) : a = b := by
  obtain ⟨hsign, hdigits⟩ := List.cons.inj h
  have habs := congrArg digitsValue hdigits
  rw [digitsValue_decimal, digitsValue_decimal] at habs
  have hiff : a < 0 ↔ b < 0 := by
    by_cases ha : a < 0 <;> by_cases hb : b < 0
    · exact iff_of_true ha hb
    · rw [if_pos ha, if_neg hb] at hsign
      exact absurd hsign (by decide)
    · rw [if_neg ha, if_pos hb] at hsign
      exact absurd hsign (by decide)
    · exact iff_of_false ha hb
  omega

theorem Numeral.text_injective : Function.Injective Numeral.text := by
  rintro ⟨⟨negative, whole, fraction, hne, hall⟩, e⟩ ⟨⟨negative', whole', fraction', hne', hall'⟩, e'⟩ h
  have hnoExponent : ∀ e : Option Int, NoDigit (e.elim [] fun e => lowerE :: signedDecimal e) := by
    intro e c hc
    cases e with
    | none => cases hc
    | some e =>
      cases hc
      rfl
  have hnoFraction : ∀ (f : Option (List UInt16)) (e : Option Int),
      NoDigit (f.elim [] (point :: ·) ++ e.elim [] fun e => lowerE :: signedDecimal e) := by
    intro f e
    cases f with
    | none => exact hnoExponent e
    | some l =>
      intro c hc
      cases hc
      rfl
  simp only [Numeral.text, Mantissa.text, Mantissa.sign, List.append_assoc] at h
  have hsign : negative = negative' := by
    obtain ⟨c, l, rfl⟩ := List.exists_cons_of_ne_nil hne
    obtain ⟨c', l', rfl⟩ := List.exists_cons_of_ne_nil hne'
    have hc := (digit_ne (hall c (by simp))).2.2.2
    have hc' := (digit_ne (hall' c' (by simp))).2.2.2
    cases negative <;> cases negative'
    · rfl
    · exact absurd (List.cons.inj h).1 hc
    · exact absurd (List.cons.inj h).1.symm hc'
    · rfl
  subst hsign
  obtain ⟨hwhole, hrest⟩ := digits_append_inj (fun c hc => hall c (List.mem_append_left _ hc))
    (fun c hc => hall' c (List.mem_append_left _ hc)) (hnoFraction _ _) (hnoFraction _ _) (List.append_cancel_left h)
  subst hwhole
  have hfraction : fraction = fraction' ∧ (e.elim [] fun e => lowerE :: signedDecimal e) =
      e'.elim [] fun e => lowerE :: signedDecimal e := by
    cases fraction with
    | none =>
      cases fraction' with
      | none => exact ⟨rfl, hrest⟩
      | some l' =>
        cases e with
        | none => cases hrest
        | some e => exact absurd (List.cons.inj hrest).1 (by decide)
    | some l =>
      cases fraction' with
      | none =>
        cases e' with
        | none => cases hrest
        | some e' => exact absurd (List.cons.inj hrest).1 (by decide)
      | some l' =>
        obtain ⟨hl, he⟩ := digits_append_inj (fun c hc => hall c (List.mem_append_right _ hc))
          (fun c hc => hall' c (List.mem_append_right _ hc)) (hnoExponent e) (hnoExponent e')
          (List.cons.inj hrest).2
        exact ⟨congrArg some hl, he⟩
  obtain ⟨rfl, he⟩ := hfraction
  have hexponent : e = e' := by
    cases e <;> cases e'
    · rfl
    · cases he
    · cases he
    · exact congrArg some (signedDecimal_injective (List.cons.inj he).2)
  rw [hexponent]

/-- What is formatted of a printed number is the same number, in fixed notation for the sizes from `low` up to 21 digits
before the point, and no buffer is too short. -/
def Formats (low : ℚ) (long : LongWidth) (p : Printed) : Prop :=
  ∃ n : Numeral, hlFormatFloat long (.finite p.text) = some n.text ∧ n.value = p.value ∧
    (n.exponent = none ↔ low ≤ |p.value| ∧ |p.value| < 10 ^ 21)

/-- The text of a finite number has its value, and is in fixed notation from a millionth up to `10 ^ 21`. -/
theorem formats (long : LongWidth) (p : Printed) : Formats (1 / 10 ^ 6) long p := by
  have hd := p.digits
  have hlen : p.mantissa.whole.length ≤ 17 := by
    have hlength := p.length_digits
    rw [Mantissa.digits, List.length_append] at hlength
    omega
  have hlt := p.exponent_lt
  have hplace : p.place.natAbs < 2000 := by
    rw [Printed.place]
    omega
  unfold Formats
  rw [p.fixed_iff, p.value_eq, hlFormatFloat, formatPrinted_eq]
  by_cases hsci : p.place > 21 ∨ p.place ≤ -6
  · obtain ⟨n, ⟨htext, hvalue⟩, hexponent⟩ := writes_scientific hd hd.kept hsci hplace
    exact ⟨n, htext, hvalue, iff_of_false hexponent (by omega)⟩
  · have hfixed : ∃ n, Writes p.mantissa.negative p.mantissa.digits p.place n ∧ n.exponent = none := by
      by_cases hsmall : p.place ≤ 0
      · exact writes_small hd hd.kept (by omega) hsmall
      · exact writes_fixed hd hd.kept (by omega) (by omega)
    obtain ⟨n, ⟨htext, hvalue⟩, hexponent⟩ := hfixed
    exact ⟨n, htext, hvalue, iff_of_true hexponent (by omega)⟩

/-- `1E-7`. -/
def tenMillionth : Printed where
  mantissa := ⟨false, [49], none, List.cons_ne_nil _ _, by simp [isDigit]⟩
  exponent := -7
  first_ne_zero := by decide
  length_digits := by decide
  exponent_lt := by decide

/-- It is written in scientific notation. -/
theorem tenMillionth_not_formats : ¬Formats (1 / 10 ^ 7) .long64 tenMillionth := by
  rintro ⟨n, htext, -, hexponent⟩
  have hvalue : tenMillionth.value = 1 / 10 ^ 7 := by
    have hone : digitsValue tenMillionth.mantissa.digits = 1 := rfl
    rw [Printed.value_eq, hone]
    norm_num [signOf, tenMillionth, Printed.place, Mantissa.digits]
  have hfixed : n.exponent = none := by
    rw [hexponent, hvalue]
    norm_num [abs_of_pos]
  have hscientific : hlFormatFloat .long64 (.finite tenMillionth.text) =
      some (Numeral.text ⟨tenMillionth.mantissa, some (-7)⟩) := by
    rw [hlFormatFloat, formatPrinted_eq, scientific_text tenMillionth.digits tenMillionth.digits.kept
      (show tenMillionth.place.natAbs < 2000 by decide) length_sign_le
      (show tenMillionth.place > 21 ∨ tenMillionth.place ≤ -6 by decide) rfl]
    rfl
  rw [hscientific] at htext
  rw [← Numeral.text_injective (Option.some.inj htext)] at hfixed
  cases hfixed

end HashLink.FloatFormat
