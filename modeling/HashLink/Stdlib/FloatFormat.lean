import HashLink.Stdlib.ParseInt
import Mathlib.Algebra.Order.Field.Power
import Mathlib.Tactic.Positivity

/-! `hl_format_float` of `buffer.c`. A text is the list of its characters before the terminator. The buffers have room
for 32 characters, and what would be written after the end of one has no result.

Digits, and what the writing of a number puts into the buffer. -/

namespace HashLink.FloatFormat

open ParseInt

def point : UInt16 := 46

def zero : UInt16 := 48

/-- The mark before an exponent that is printed, and the one that is accepted as well. -/
def upperE : UInt16 := 69

def lowerE : UInt16 := 101

def decimal (n : Nat) : List UInt16 :=
  if n < 10 then [UInt16.ofNat (48 + n)] else decimal (n / 10) ++ [UInt16.ofNat (48 + n % 10)]
termination_by n

/-- `%+d`. -/
def signedDecimal (n : Int) : List UInt16 := (if n < 0 then minus else plus) :: decimal n.natAbs

def ascii (s : String) : List UInt16 := s.toList.map fun c => UInt16.ofNat c.toNat

def append (text s : List UInt16) : Option (List UInt16) :=
  if text.length + s.length ≤ 32 then some (text ++ s) else none

def terminate (text : List UInt16) : Option (List UInt16) := if text.length < 32 then some text else none

def scanDigits (digits : List UInt16) (place : Int) :
    List UInt16 → Option (List UInt16 × Int × List UInt16)
  | [] => some (digits, place, [])
  | c :: cursor =>
    if c = upperE ∨ c = lowerE then some (digits, place, c :: cursor)
    else if c = point then scanDigits digits digits.length cursor
    else (append digits [c]).bind fun digits => scanDigits digits place cursor

/-- The number of digits without the zeros at the end. -/
def trimCount (digits : List UInt16) : Nat → Nat
  | count + 1 => if 0 < count ∧ digits.getD count 0 = zero then trimCount digits count else count + 1
  | 0 => 0

/-- One turn of the loop that writes fixed notation. -/
def putDigit (digits : List UInt16) (count : Nat) (place : Int) (text : List UInt16) (index : Nat) :
    Option (List UInt16) := do
  let text ← if (index : Int) = place then append text [point] else some text
  append text [if index < count then digits.getD index 0 else zero]

/-- The text of a number, of which the digits are known and how many of them are before the point. -/
def writeNumber (negative : Bool) (digits : List UInt16) (place : Int) : Option (List UInt16) := do
  let count := trimCount digits digits.length
  let text ← (if negative then append [] [minus] else some [] : Option (List UInt16))
  if place > 21 ∨ place ≤ -6 then
    let text ← append text (digits.take 1)
    let text ← (if count > 1 then (append text [point]).bind fun text => append text ((digits.take count).drop 1)
      else some text : Option (List UInt16))
    -- a text that is cut off would have a length that is not its own
    (append text (lowerE :: signedDecimal (place - 1))).bind terminate
  else if place ≤ 0 then
    let text ← append text [zero, point]
    let text ← append text (List.replicate (-place).toNat zero)
    (append text (digits.take count)).bind terminate
  else
    ((List.range (max count place.toNat)).foldlM (putDigit digits count place) text).bind terminate

def formatPrinted (long : LongWidth) (scientific : List UInt16) : Option (List UInt16) := do
  let scientific ← terminate scientific
  let negative := decide (scientific.head? = some minus)
  let (digits, place, cursor) ← scanDigits [] 0 (if negative then scientific.tail else scientific)
  let place := if point ∈ scientific then place else digits.length
  let exponent := if cursor = [] then 0 else (BitVec.ofInt 32 (strtol long cursor.tail).1).toInt
  writeNumber negative digits (place + exponent)

/-- The kinds of a number, with what the printer gives. -/
inductive Value where
  | nan
  | infinite (negative : Bool)
  | zero
  | finite (scientific : List UInt16)

def hlFormatFloat (long : LongWidth) : Value → Option (List UInt16)
  | .nan => some (ascii "NaN")
  | .infinite negative => some (ascii (if negative then "-Infinity" else "Infinity"))
  | .zero => some (ascii "0")
  | .finite scientific => formatPrinted long scientific

/-- A sign and digits, some of them after a point. -/
structure Mantissa where
  negative : Bool
  whole : List UInt16
  fraction : Option (List UInt16)
  whole_ne_nil : whole ≠ []
  allDigits : ∀ c ∈ whole ++ fraction.getD [], isDigit c

namespace Mantissa

variable (m : Mantissa)

def digits : List UInt16 := m.whole ++ m.fraction.getD []

def sign : List UInt16 := if m.negative then [minus] else []

def text : List UInt16 := m.sign ++ m.whole ++ m.fraction.elim [] (point :: ·)

/-- The number that it denotes with an exponent. -/
def value (exponent : Int) : ℚ :=
  (if m.negative then -1 else 1) * digitsValue m.digits * 10 ^ (exponent - (m.fraction.getD []).length)

end Mantissa

/-- A number in fixed notation, or in scientific notation with an exponent. -/
structure Numeral where
  mantissa : Mantissa
  exponent : Option Int

def Numeral.text (n : Numeral) : List UInt16 :=
  n.mantissa.text ++ n.exponent.elim [] fun e => lowerE :: signedDecimal e

def Numeral.value (n : Numeral) : ℚ := n.mantissa.value (n.exponent.getD 0)

/-- What the printer returns for a number other than zero: at most 17 digits and an exponent of three. -/
structure Printed where
  mantissa : Mantissa
  exponent : Int
  first_ne_zero : mantissa.whole.head? ≠ some zero
  length_digits : mantissa.digits.length ≤ 17
  exponent_lt : exponent.natAbs < 1000

def Printed.text (p : Printed) : List UInt16 :=
  p.mantissa.text ++ upperE :: ((if p.exponent < 0 then [minus] else []) ++ decimal p.exponent.natAbs)

def Printed.value (p : Printed) : ℚ := p.mantissa.value p.exponent

theorem isDigit_digit {d : Nat} (hd : d < 10) : isDigit (UInt16.ofNat (48 + d)) := by
  have hall : ∀ d : Fin 10, isDigit (UInt16.ofNat (48 + d.val)) := by decide
  exact hall ⟨d, hd⟩

theorem value_digit {d : Nat} (hd : d < 10) : digitsValue [UInt16.ofNat (48 + d)] = d := by
  have hall : ∀ d : Fin 10, digitsValue [UInt16.ofNat (48 + d.val)] = d.val := by decide
  exact hall ⟨d, hd⟩

theorem isDigit_zero : isDigit zero := by decide

theorem isDigit_decimal (n : Nat) : ∀ c ∈ decimal n, isDigit c := by
  induction n using Nat.strongRecOn with
  | ind n ih =>
    rw [decimal]
    split
    · rename_i hlt
      intro c hc
      rw [List.mem_singleton.1 hc]
      exact isDigit_digit hlt
    · refine List.forall_mem_append.2 ⟨ih (n / 10) (by omega), fun c hc => ?_⟩
      rw [List.mem_singleton.1 hc]
      exact isDigit_digit (Nat.mod_lt n (by decide))

theorem decimal_ne_nil (n : Nat) : decimal n ≠ [] := by
  rw [decimal]
  split
  · exact List.cons_ne_nil _ _
  · exact List.append_ne_nil_of_right_ne_nil _ (List.cons_ne_nil _ _)

theorem digitsValue_decimal (n : Nat) : digitsValue (decimal n) = n := by
  induction n using Nat.strongRecOn with
  | ind n ih =>
    rw [decimal]
    split
    · rename_i hlt
      exact value_digit hlt
    · rw [digitsValue_append, ih (n / 10) (by omega), value_digit (Nat.mod_lt n (by decide))]
      exact Nat.div_add_mod' n 10

theorem length_decimal_le {n k : Nat} (hn : n < 10 ^ (k + 1)) : (decimal n).length ≤ k + 1 := by
  induction k generalizing n with
  | zero =>
    rw [decimal, if_pos (by simpa using hn)]
    exact Nat.le_refl 1
  | succ k ih =>
    rw [decimal]
    split
    · exact Nat.le_add_left ..
    · rw [List.length_append]
      exact Nat.succ_le_succ (ih (Nat.div_lt_of_lt_mul (by rw [Nat.mul_comm, ← Nat.pow_succ]; exact hn)))

theorem digitsValue_zeros (k : Nat) : digitsValue (List.replicate k zero) = 0 := by
  induction k with
  | zero => rfl
  | succ k ih =>
    rw [List.replicate_succ', digitsValue_append, ih]
    rfl

theorem digitsValue_append_zeros (l : List UInt16) (k : Nat) :
    digitsValue (l ++ List.replicate k zero) = digitsValue l * 10 ^ k := by
  rw [digitsValue_append, digitsValue_zeros, List.length_replicate, Nat.add_zero]

theorem digitsValue_zeros_append (k : Nat) (l : List UInt16) :
    digitsValue (List.replicate k zero ++ l) = digitsValue l := by
  rw [digitsValue_append, digitsValue_zeros, Nat.zero_mul, Nat.zero_add]

theorem digit_bounds {c : UInt16} (h : isDigit c) : 48 ≤ c.toNat ∧ c.toNat ≤ 57 := by
  rw [isDigit, Bool.and_eq_true, decide_eq_true_iff, decide_eq_true_iff] at h
  exact ⟨UInt16.le_iff_toNat_le.1 h.1, UInt16.le_iff_toNat_le.1 h.2⟩

theorem digitsValue_lt {l : List UInt16} (h : ∀ c ∈ l, isDigit c) : digitsValue l < 10 ^ l.length := by
  induction l using List.reverseRecOn with
  | nil => decide
  | append_singleton l c ih =>
    have hc := digit_bounds (h c (List.mem_append_right l List.mem_cons_self))
    have hl := ih fun d hd => h d (List.mem_append_left _ hd)
    have hone : digitsValue [c] = c.toNat - 48 := by
      rw [digitsValue, List.foldl_cons, List.foldl_nil, Nat.mul_zero, Nat.zero_add]
    rw [digitsValue_append, List.length_append, List.length_singleton, hone, Nat.pow_succ]
    omega

theorem le_digitsValue {c : UInt16} {l : List UInt16} (hc : isDigit c) (h0 : c ≠ zero) :
    10 ^ l.length ≤ digitsValue (c :: l) := by
  have hbounds := digit_bounds hc
  have hne : c.toNat ≠ 48 := fun h => h0 (UInt16.toNat_inj.1 h)
  have hone : digitsValue [c] = c.toNat - 48 := by
    rw [digitsValue, List.foldl_cons, List.foldl_nil, Nat.mul_zero, Nat.zero_add]
  have happend := digitsValue_append [c] l
  rw [List.singleton_append, hone] at happend
  have hmul : 1 * 10 ^ l.length ≤ (c.toNat - 48) * 10 ^ l.length := Nat.mul_le_mul_right _ (by omega)
  omega

theorem trimCount_spec (digits : List UInt16) {n : Nat} (h1 : 1 ≤ n) (hn : n ≤ digits.length) :
    1 ≤ trimCount digits n ∧ trimCount digits n ≤ n ∧ digits.take n =
      digits.take (trimCount digits n) ++ List.replicate (n - trimCount digits n) zero := by
  induction n with
  | zero => omega
  | succ count ih =>
    rw [trimCount]
    split
    · rename_i h
      obtain ⟨hlow, hle, htake⟩ := ih h.1 (Nat.le_of_succ_le hn)
      refine ⟨hlow, Nat.le_succ_of_le hle, ?_⟩
      rw [List.getD_eq_getElem?_getD, List.getElem?_eq_getElem hn, Option.getD_some] at h
      rw [List.take_succ_eq_append_getElem hn, h.2, htake, Nat.succ_sub hle, List.replicate_succ', List.append_assoc]
    · exact ⟨h1, Nat.le_refl _, by rw [Nat.sub_self, List.replicate_zero, List.append_nil]⟩

theorem append_eq {text s : List UInt16} (h : text.length + s.length ≤ 32) : append text s = some (text ++ s) :=
  if_pos h

theorem terminate_eq {text : List UInt16} (h : text.length < 32) : terminate text = some text := if_pos h

/-- What a turn of the loop of fixed notation writes. -/
def digitAt (digits : List UInt16) (count : Nat) (place : Int) (index : Nat) : List UInt16 :=
  (if (index : Int) = place then [point] else []) ++ [if index < count then digits.getD index 0 else zero]

theorem putDigit_eq {digits text : List UInt16} {count index : Nat} {place : Int}
    (h : (text ++ digitAt digits count place index).length ≤ 32) :
    putDigit digits count place text index = some (text ++ digitAt digits count place index) := by
  rw [digitAt, List.length_append, List.length_append] at h
  rw [putDigit, digitAt]
  by_cases hpoint : (index : Int) = place
  · rw [if_pos hpoint] at h ⊢
    rw [if_pos hpoint, append_eq (by simp only [List.length_cons, List.length_nil] at h ⊢; omega)]
    simp only [Option.bind_eq_bind, Option.bind_some]
    rw [append_eq (by simp only [List.length_append, List.length_cons, List.length_nil] at h ⊢; omega),
      List.append_assoc]
  · rw [if_neg hpoint] at h ⊢
    rw [if_neg hpoint]
    simp only [Option.bind_eq_bind, Option.bind_some]
    rw [append_eq (by simp only [List.length_cons, List.length_nil] at h ⊢; omega), List.nil_append]

theorem putDigits_eq {digits text : List UInt16} {count : Nat} {place : Int} (n : Nat)
    (h : (text ++ (List.range n).flatMap (digitAt digits count place)).length ≤ 32) :
    (List.range n).foldlM (putDigit digits count place) text =
      some (text ++ (List.range n).flatMap (digitAt digits count place)) := by
  induction n with
  | zero =>
    rw [List.range_zero, List.flatMap_nil, List.append_nil]
    rfl
  | succ n ih =>
    rw [List.range_succ, List.flatMap_append, List.flatMap_singleton, ← List.append_assoc] at h ⊢
    rw [List.foldlM_append, ih (by rw [List.length_append] at h; omega)]
    simp only [Option.bind_eq_bind, Option.bind_some, List.foldlM_cons, List.foldlM_nil]
    rw [putDigit_eq h]
    rfl

theorem fixed_eq {digits padded : List UInt16} {count place : Nat} {n : Nat} (hn : n ≤ padded.length)
    (hdigit : ∀ i (hi : i < padded.length), (if i < count then digits.getD i 0 else zero) = padded[i]) :
    (List.range n).flatMap (digitAt digits count place) =
      padded.take (min n place) ++ if place < n then point :: (padded.take n).drop place else [] := by
  induction n with
  | zero => simp
  | succ n ih =>
    rw [List.range_succ, List.flatMap_append, List.flatMap_singleton, ih (Nat.le_of_succ_le hn), digitAt,
      hdigit n hn]
    have htake := List.take_succ_eq_append_getElem hn
    obtain hlt | heq | hgt := Nat.lt_trichotomy n place
    · rw [if_neg (by omega), if_neg (by omega), if_neg (by omega), Nat.min_eq_left (by omega),
        Nat.min_eq_left (by omega), htake]
      simp
    · subst heq
      rw [if_neg (by omega), if_pos rfl, if_pos (by omega), Nat.min_self, Nat.min_eq_right (by omega), htake,
        List.drop_append_of_le_length (by rw [List.length_take]; omega)]
      simp
    · rw [if_pos hgt, if_neg (by omega), if_pos (by omega), Nat.min_eq_right (by omega), Nat.min_eq_right (by omega),
        htake, List.drop_append_of_le_length (by rw [List.length_take]; omega)]
      simp

end HashLink.FloatFormat
