import HashLink.Lib.Outcome
import HashLink.Lib.Tokens
import HashLink.Stdlib.StringBuffer
import HashLink.Stdlib.Utf

/-! `hl_url_encode` and `hl_url_decode` of `string.c`. A text is what is in memory, with the terminator. The encoder
and the decoder write to a buffer, here as the list of its units, and what they return is its content.

Encoded texts as pieces: single units and escaped sequences of bytes. The decoder takes one piece a turn. It also
takes a `%` that is no escape in the place of a further byte, which makes some texts pieces that are none. -/

namespace HashLink.Url

open Outcome Text Utf

def percent : UInt16 := 37

def plus : UInt16 := 43

def isLetter (c : UInt16) : Bool := (65 ≤ c.toNat && c.toNat ≤ 90) || (97 ≤ c.toNat && c.toNat ≤ 122)

def isDigit (c : UInt16) : Bool := 48 ≤ c.toNat && c.toNat ≤ 57

/-- The units that are not encoded: letters, digits, `_`, `-` and `.`. -/
def isPlain (c : UInt16) : Bool := isLetter c || isDigit c || c = 95 || c = 45 || c = 46

/-- The table of the digits, `0` to `9` and `A` to `F`. -/
def hex : List UInt16 := [48, 49, 50, 51, 52, 53, 54, 55, 56, 57, 65, 66, 67, 68, 69, 70]

/-- `hl_buffer_hex`. -/
def bufferHex (c : UInt8) : List UInt16 := [percent, hex.getD (c.toNat >>> 4) 0, hex.getD (c.toNat &&& 0xF) 0]

/-- The loop of `hl_url_encode`: the units that it writes, or none where it reads after the terminator. -/
def encodeUnits : List UInt16 → Option (List UInt16)
  | [] => none
  | c :: cstr =>
    if c = 0 then some []
    else if isPlain c then (encodeUnits cstr).map (c :: ·)
    else if c.toNat < 0x80 then (encodeUnits cstr).map (bufferHex (UInt8.ofNat c.toNat) ++ ·)
    else if c.toNat < 0x800 then (encodeUnits cstr).map ((two c.toNat).flatMap bufferHex ++ ·)
    else if 0xD800 ≤ c.toNat && c.toNat ≤ 0xDBFF then
      match cstr with
      | [] => none
      | sur :: rest =>
        if 0xDC00 ≤ sur.toNat && sur.toNat < 0xDFFF then
          (encodeUnits rest).map ((four (surrogatePair c.toNat sur.toNat)).flatMap bufferHex ++ ·)
        else (encodeUnits (sur :: rest)).map ((three c.toNat).flatMap bufferHex ++ ·)
    else (encodeUnits cstr).map ((three c.toNat).flatMap bufferHex ++ ·)

/-- `hl_buffer_content` of a new buffer, which the units were written to one by one: the text, and its length. Memory
that was not written holds `fresh`. -/
def bufferContent (fresh : Nat → UInt16) (units : List UInt16) : Option (List UInt16 × Nat) := do
  let b ← (StringBuffer.runAppends (units.map fun c => .char c fresh)).toOption
  let _ ← hlGcAllocNoptr (2 * (b.totlen + 1))
  let (buf, len) ← (StringBuffer.hlBufferContent fresh b).toOption
  some (buf.text (len + 1), len)

def hlUrlEncode (fresh : Nat → UInt16) (str : List UInt16) : Option (List UInt16 × Nat) := do
  bufferContent fresh (← encodeUnits str)

/-- The units of an encoded text: one for a plain unit, three for each byte of another. -/
def encodedLength : List UInt16 → Nat
  | [] => 0
  | c :: cstr =>
    if isPlain c then 1 + encodedLength cstr
    else if c.toNat < 0x80 then 3 + encodedLength cstr
    else if c.toNat < 0x800 then 6 + encodedLength cstr
    else if 0xD800 ≤ c.toNat && c.toNat ≤ 0xDBFF then
      match cstr with
      | [] => 9
      | sur :: rest =>
        if 0xDC00 ≤ sur.toNat && sur.toNat < 0xDFFF then 12 + encodedLength rest else 9 + encodedLength (sur :: rest)
    else 9 + encodedLength cstr

/-- Why the decoder gives no text: it reads after the terminator, or it raises an error. -/
inductive Stop where
  | outside
  | error (text : String)
  deriving DecidableEq, Repr

def malformed : Stop := .error "Malformed URL encoded"

def next : List UInt16 → Except Stop (UInt16 × List UInt16)
  | [] => .error .outside
  | c :: cstr => .ok (c, cstr)

/-- `(uchar)-1`. -/
def invalid : UInt16 := 0xFFFF

def decodeHexChar (c : UInt16) : UInt16 :=
  if 48 ≤ c.toNat && c.toNat ≤ 57 then c - 48
  else if 97 ≤ c.toNat && c.toNat ≤ 102 then c - (97 - 10)
  else if 65 ≤ c.toNat && c.toNat ≤ 70 then c - (65 - 10)
  else invalid

/-- `decode_hex`: the number and where the text goes on. -/
def decodeHex (cstr : List UInt16) : Except Stop (UInt16 × List UInt16) := do
  let (c₀, rest) ← next cstr
  let p₁ := decodeHexChar c₀
  if p₁ = invalid then return (p₁, cstr)
  let (c₁, rest) ← next rest
  let p₂ := decodeHexChar c₁
  if p₂ = invalid then return (p₂, cstr)
  return (p₁ <<< 4 ||| p₂, rest)

/-- The reading of a further byte. The number is unsigned, so the test for a negative one is never true. -/
def furtherByte (cstr : List UInt16) : Except Stop (UInt16 × List UInt16) := do
  let (c, cstr) ← next cstr
  if c ≠ percent then throw malformed
  decodeHex cstr

def sequenceUnits : List Nat → List UInt16
  | [p₁] => [UInt16.ofNat p₁]
  | [p₁, p₂] => [unit2 p₁ p₂]
  | [p₁, p₂, p₃] => [unit3 p₁ p₂ p₃]
  | [p₁, p₂, p₃, p₄] => [highUnit (lastPlanes p₁ p₂ p₃ p₄), lowUnit (lastPlanes p₁ p₂ p₃ p₄)]
  | _ => []

def decodeSequence (p₁ : UInt16) (cstr : List UInt16) : Except Stop (List UInt16 × List UInt16) := do
  if p₁.toNat < 0x80 then return (sequenceUnits [p₁.toNat], cstr)
  let (p₂, cstr) ← furtherByte cstr
  if p₁.toNat < 0xE0 then return (sequenceUnits [p₁.toNat, p₂.toNat], cstr)
  let (p₃, cstr) ← furtherByte cstr
  if p₁.toNat < 0xF0 then return (sequenceUnits [p₁.toNat, p₂.toNat, p₃.toNat], cstr)
  let (p₄, cstr) ← furtherByte cstr
  return (sequenceUnits [p₁.toNat, p₂.toNat, p₃.toNat, p₄.toNat], cstr)

/-- One turn of the loop of `hl_url_decode`: the units that are added and where the text goes on, or none at the
terminator. -/
def decodeTurn (cstr : List UInt16) : Except Stop (Option (List UInt16 × List UInt16)) := do
  let (c, cstr) ← next cstr
  if c = 0 then return none
  if c = plus then return some ([32], cstr)
  if c ≠ percent then return some ([c], cstr)
  let (p₁, cstr) ← decodeHex cstr
  if p₁ = invalid then return some ([percent], cstr)
  return some (← decodeSequence p₁ cstr)

theorem next_shorter (cstr : List UInt16) : Meets (fun _ => True) (fun r => r.2.length < cstr.length) (next cstr) := by
  cases cstr with
  | nil => trivial
  | cons c cstr => exact Nat.lt_succ_self _

theorem decodeHex_shorter (cstr : List UInt16) :
    Meets (fun _ => True) (fun r => r.2.length ≤ cstr.length) (decodeHex cstr) := by
  refine meets_bind (next_shorter cstr) fun r₀ h₀ => ?_
  dsimp only
  split
  · exact meets_pure (Nat.le_refl _)
  refine meets_bind (next_shorter r₀.2) fun r₁ h₁ => ?_
  split
  · exact meets_pure (Nat.le_refl _)
  · exact meets_pure (Nat.le_of_lt (h₁.trans h₀))

theorem furtherByte_shorter (cstr : List UInt16) :
    Meets (fun _ => True) (fun r => r.2.length < cstr.length) (furtherByte cstr) := by
  refine meets_bind (next_shorter cstr) fun r hr => ?_
  dsimp only
  split
  · trivial
  · exact (decodeHex_shorter r.2).imp fun _ h => Nat.lt_of_le_of_lt h hr

theorem decodeSequence_shorter (p₁ : UInt16) (cstr : List UInt16) :
    Meets (fun _ => True) (fun r => r.2.length ≤ cstr.length) (decodeSequence p₁ cstr) := by
  unfold decodeSequence
  split
  · exact meets_pure (Nat.le_refl _)
  refine meets_bind (furtherByte_shorter cstr) fun ⟨p₂, cstr₂⟩ h₂ => ?_
  have h₂ : cstr₂.length ≤ cstr.length := Nat.le_of_lt h₂
  dsimp only
  split
  · exact meets_pure h₂
  refine meets_bind (furtherByte_shorter cstr₂) fun ⟨p₃, cstr₃⟩ h₃ => ?_
  have h₃ : cstr₃.length ≤ cstr.length := (Nat.le_of_lt h₃).trans h₂
  dsimp only
  split
  · exact meets_pure h₃
  exact meets_bind (furtherByte_shorter cstr₃) fun r₄ h₄ => meets_pure ((Nat.le_of_lt h₄).trans h₃)

theorem decodeTurn_shorter (cstr : List UInt16) :
    Meets (fun _ => True) (fun o => ∀ r, o = some r → r.2.length < cstr.length) (decodeTurn cstr) := by
  have hsome : ∀ r : List UInt16 × List UInt16, r.2.length < cstr.length →
      Meets (fun _ => True) (fun o : Option (List UInt16 × List UInt16) => ∀ r, o = some r → r.2.length < cstr.length)
        (pure (some r) : Except Stop (Option (List UInt16 × List UInt16))) :=
    fun r h => meets_pure fun r' hr => by cases hr; exact h
  refine meets_bind (next_shorter cstr) fun r hr => ?_
  dsimp only
  split
  · exact meets_pure nofun
  split
  · exact hsome _ hr
  split
  · exact hsome _ hr
  refine meets_bind (decodeHex_shorter r.2) fun r₁ h₁ => ?_
  have h₁ := Nat.lt_of_le_of_lt h₁ hr
  split
  · exact hsome _ h₁
  exact meets_bind (decodeSequence_shorter r₁.1 r₁.2) fun r₂ h₂ => hsome r₂ (Nat.lt_of_le_of_lt h₂ h₁)

theorem turn_shorter {cstr units rest : List UInt16} (h : decodeTurn cstr = .ok (some (units, rest))) :
    rest.length < cstr.length := by
  have hshorter := decodeTurn_shorter cstr
  rw [h] at hshorter
  exact hshorter (units, rest) rfl

/-- `hl_url_decode`: the content of the buffer. -/
def hlUrlDecode (cstr : List UInt16) : Except Stop (List UInt16) :=
  match _h : decodeTurn cstr with
  | .error e => .error e
  | .ok none => .ok []
  | .ok (some (units, rest)) => (hlUrlDecode rest).map (units ++ ·)
termination_by cstr.length
decreasing_by exact turn_shorter _h

section
variable {cstr units rest : List UInt16}

theorem hlUrlDecode_error {e : Stop} (h : decodeTurn cstr = .error e) : hlUrlDecode cstr = .error e := by
  rw [hlUrlDecode]
  split <;> simp_all only [reduceCtorEq, Except.error.injEq]

theorem hlUrlDecode_end (h : decodeTurn cstr = .ok none) : hlUrlDecode cstr = .ok [] := by
  rw [hlUrlDecode]
  split <;> simp_all only [reduceCtorEq, Except.ok.injEq]

theorem hlUrlDecode_turn (h : decodeTurn cstr = .ok (some (units, rest))) :
    hlUrlDecode cstr = (hlUrlDecode rest).map (units ++ ·) := by
  rw [hlUrlDecode]
  split <;> simp_all only [reduceCtorEq, Except.ok.injEq, Option.some.injEq, Prod.mk.injEq]
end

open Tokens

inductive HexDigit : UInt16 → Nat → Prop where
  | digit {c : UInt16} {n : Nat} (h : c.toNat = 48 + n) (hn : n < 10) : HexDigit c n
  | lower {c : UInt16} {n : Nat} (h : c.toNat = 97 + n) (hn : n < 6) : HexDigit c (10 + n)
  | upper {c : UInt16} {n : Nat} (h : c.toNat = 65 + n) (hn : n < 6) : HexDigit c (10 + n)

/-- A text starts with the escape of a byte. -/
inductive Escape : List UInt16 → UInt8 → List UInt16 → Prop where
  | intro {c₁ c₂ : UInt16} {n₁ n₂ : Nat} (h₁ : HexDigit c₁ n₁) (h₂ : HexDigit c₂ n₂) (rest : List UInt16) :
      Escape (percent :: c₁ :: c₂ :: rest) (UInt8.ofNat (16 * n₁ + n₂)) rest

/-- A text starts with a `%` that two digits do not follow. -/
inductive Bare : List UInt16 → List UInt16 → Prop where
  | intro {rest : List UInt16} (h : ∀ b r, ¬Escape (percent :: rest) b r) : Bare (percent :: rest) rest

def following (b : UInt8) : Nat :=
  if b.toNat < 0x80 then 0 else if b.toNat < 0xE0 then 1 else if b.toNat < 0xF0 then 2 else 3

/-- The first piece of a text, and its units. Bytes that encode no character have the units of their number. -/
inductive Piece : List UInt16 → List UInt16 → List UInt16 → Prop where
  | unit {c : UInt16} (h0 : c ≠ 0) (hplus : c ≠ plus) (hpercent : c ≠ percent) (rest : List UInt16) :
      Piece (c :: rest) [c] rest
  | space (rest : List UInt16) : Piece (plus :: rest) [32] rest
  | bare {text rest : List UInt16} (h : Bare text rest) : Piece text [percent] rest
  | char {text rest : List UInt16} (c : Char) (h : Run Escape text (String.utf8EncodeChar c) rest) :
      Piece text (utf16 c) rest
  | other {text rest : List UInt16} {b : UInt8} {bs : List UInt8} (h : Run Escape text (b :: bs) rest)
      (hlen : bs.length = following b) (hno : ∀ c, String.utf8EncodeChar c ≠ b :: bs) :
      Piece text (sequenceUnits ((b :: bs).map UInt8.toNat)) rest

/-- The first byte of a sequence is escaped, and those that follow it are not all. -/
inductive Malformed : List UInt16 → Prop where
  | intro {text mid rest : List UInt16} {b : UInt8} {bs : List UInt8} (h : Escape text b mid)
      (hbs : Run Escape mid bs rest) (hlen : bs.length < following b) (hno : ∀ c r, ¬Escape rest c r) : Malformed text

/-- What is taken as a further byte, with its number. -/
inductive Place : List UInt16 → Nat → List UInt16 → Prop where
  | escape {text rest : List UInt16} {b : UInt8} (h : Escape text b rest) : Place text b.toNat rest
  | bare {text rest : List UInt16} (h : Bare text rest) : Place text 0xFFFF rest

/-- What is taken as the first piece of a text. -/
inductive Taken : List UInt16 → List UInt16 → List UInt16 → Prop where
  | unit {c : UInt16} (h0 : c ≠ 0) (hplus : c ≠ plus) (hpercent : c ≠ percent) (rest : List UInt16) :
      Taken (c :: rest) [c] rest
  | space (rest : List UInt16) : Taken (plus :: rest) [32] rest
  | bare {text rest : List UInt16} (h : Bare text rest) : Taken text [percent] rest
  | bytes {text mid rest : List UInt16} {b : UInt8} {ns : List Nat} (h : Escape text b mid)
      (hns : Run Place mid ns rest) (hlen : ns.length = following b) : Taken text (sequenceUnits (b.toNat :: ns)) rest

/-- A byte that follows the first one of a sequence has not even a `%` in its place. -/
inductive Missing : List UInt16 → Prop where
  | intro {text mid rest : List UInt16} {b : UInt8} {ns : List Nat} (h : Escape text b mid)
      (hns : Run Place mid ns rest) (hlen : ns.length < following b) (hno : rest.head? ≠ some percent) : Missing text

variable {n v : Nat} {c : UInt16}

theorem between_iff {a b : Nat} : (decide (a ≤ n) && decide (n ≤ b)) = true ↔ a ≤ n ∧ n ≤ b := by
  rw [Bool.and_eq_true, decide_eq_true_iff, decide_eq_true_iff]

theorem sub_eq {d : UInt16} (h : c.toNat = d.toNat + n) : c - d = UInt16.ofNat n := by
  have hlt := c.toNat_lt
  have hle : d ≤ c := UInt16.le_iff_toNat_le.2 (by omega)
  rw [← UInt16.toNat_inj, UInt16.toNat_sub_of_le c d hle, h, Nat.add_sub_cancel_left, toNat_unit (by omega)]

theorem HexDigit.lt (h : HexDigit c n) : n < 16 := by
  cases h <;> omega

theorem decodeHexChar_digit (h : HexDigit c n) : decodeHexChar c = UInt16.ofNat n := by
  cases h with
  | digit h hn =>
    rw [decodeHexChar, if_pos ((between_iff).2 (by omega))]
    exact sub_eq h
  | @lower n h hn =>
    rw [decodeHexChar, if_neg (mt (between_iff).1 (by omega)), if_pos ((between_iff).2 (by omega))]
    exact sub_eq (show c.toNat = 87 + (10 + n) by omega)
  | @upper n h hn =>
    rw [decodeHexChar, if_neg (mt (between_iff).1 (by omega)), if_neg (mt (between_iff).1 (by omega)),
      if_pos ((between_iff).2 (by omega))]
    exact sub_eq (show c.toNat = 55 + (10 + n) by omega)

theorem decodeHexChar_invalid (h : ∀ n, ¬HexDigit c n) : decodeHexChar c = invalid := by
  have hdigit : ¬(48 ≤ c.toNat ∧ c.toNat ≤ 57) := fun hc => h (c.toNat - 48) (.digit (by omega) (by omega))
  have hlower : ¬(97 ≤ c.toNat ∧ c.toNat ≤ 102) := fun hc => h (10 + (c.toNat - 97)) (.lower (by omega) (by omega))
  have hupper : ¬(65 ≤ c.toNat ∧ c.toNat ≤ 70) := fun hc => h (10 + (c.toNat - 65)) (.upper (by omega) (by omega))
  rw [decodeHexChar, if_neg (mt (between_iff).1 hdigit), if_neg (mt (between_iff).1 hlower),
    if_neg (mt (between_iff).1 hupper)]

theorem unit_ne_invalid (hn : n < 0xFFFF) : UInt16.ofNat n ≠ invalid := by
  rw [Ne, ← UInt16.toNat_inj, toNat_unit (by omega)]
  exact Nat.ne_of_lt hn

theorem digits_eq {a b : Nat} (ha : a < 16) (hb : b < 16) :
    UInt16.ofNat a <<< 4 ||| UInt16.ofNat b = UInt16.ofNat (16 * a + b) := by
  have hall : ∀ a b : Fin 16, UInt16.ofNat a.val <<< 4 ||| UInt16.ofNat b.val = UInt16.ofNat (16 * a.val + b.val) := by
    decide +kernel
  exact hall ⟨a, ha⟩ ⟨b, hb⟩

variable {text mid rest us : List UInt16} {b : UInt8}

theorem decodeHex_escape (h : Escape (percent :: text) b rest) :
    decodeHex (text ++ [0]) = .ok (UInt16.ofNat b.toNat, rest ++ [0]) := by
  cases h with
  | @intro c₁ c₂ n₁ n₂ h₁ h₂ =>
    have hlt₁ := h₁.lt
    have hlt₂ := h₂.lt
    have hbyte : (UInt8.ofNat (16 * n₁ + n₂)).toNat = 16 * n₁ + n₂ := toNat_byte (by omega)
    rw [hbyte, ← digits_eq hlt₁ hlt₂, ← decodeHexChar_digit h₁, ← decodeHexChar_digit h₂]
    have hvalid₁ : decodeHexChar c₁ ≠ invalid := decodeHexChar_digit h₁ ▸ unit_ne_invalid (by omega)
    have hvalid₂ : decodeHexChar c₂ ≠ invalid := decodeHexChar_digit h₂ ▸ unit_ne_invalid (by omega)
    simp only [decodeHex, next, List.cons_append, bind, Except.bind]
    rw [if_neg hvalid₁, if_neg hvalid₂]
    rfl

theorem decodeHexChar_zero : decodeHexChar 0 = invalid := rfl

theorem decodeHex_bare (h : Bare (percent :: text) rest) : decodeHex (text ++ [0]) = .ok (invalid, text ++ [0]) := by
  cases h with
  | intro h =>
    match text with
    | [] => rfl
    | [c] =>
      simp only [decodeHex, next, List.cons_append, List.nil_append, bind, Except.bind]
      rw [decodeHexChar_zero, if_pos rfl]
      split <;> simp_all only [pure, Except.pure]
    | c₁ :: c₂ :: rest =>
      have hno : ¬((∃ n, HexDigit c₁ n) ∧ ∃ n, HexDigit c₂ n) :=
        fun ⟨⟨n₁, h₁⟩, ⟨n₂, h₂⟩⟩ => h _ _ (.intro h₁ h₂ rest)
      simp only [decodeHex, next, List.cons_append, bind, Except.bind]
      by_cases h₁ : ∃ n, HexDigit c₁ n
      · have h₂ := not_exists.1 (not_and.1 hno h₁)
        rw [decodeHexChar_invalid h₂, if_pos rfl]
        split <;> simp_all only [pure, Except.pure]
      · rw [decodeHexChar_invalid (not_exists.1 h₁), if_pos rfl]
        rfl

theorem furtherByte_place (h : Place text n rest) :
    furtherByte (text ++ [0]) = .ok (UInt16.ofNat n, rest ++ [0]) := by
  cases h with
  | escape h =>
    cases h with
    | intro h₁ h₂ => exact decodeHex_escape (.intro h₁ h₂ rest)
  | bare h =>
    cases h with
    | intro h => exact decodeHex_bare (.intro h)

theorem furtherByte_missing (h : text.head? ≠ some percent) : furtherByte (text ++ [0]) = .error malformed := by
  cases text with
  | nil => rfl
  | cons c text =>
    have hc : c ≠ percent := fun hc => h (congrArg some hc)
    simp only [furtherByte, next, List.cons_append, bind, Except.bind]
    rw [if_pos hc]
    rfl

theorem Place.lt (h : Place text n rest) : n < 0x10000 := by
  cases h with
  | escape h => exact (UInt8.toNat_lt _).trans (by decide)
  | bare h => decide

theorem toNat_first (b : UInt8) : (UInt16.ofNat b.toNat).toNat = b.toNat := toNat_unit (b.toNat_lt.trans (by decide))

theorem decodeSequence_taken {ns : List Nat} (h : Run Place mid ns rest) (hlen : ns.length = following b) :
    decodeSequence (UInt16.ofNat b.toNat) (mid ++ [0]) = .ok (sequenceUnits (b.toNat :: ns), rest ++ [0]) := by
  rw [decodeSequence, toNat_first]
  rw [following] at hlen
  by_cases h₁ : b.toNat < 0x80
  · rw [if_pos h₁] at hlen ⊢
    cases h with
    | nil => rfl
    | cons => cases hlen
  rw [if_neg h₁] at hlen ⊢
  cases h with
  | nil =>
    split_ifs at hlen
  | cons hn₂ h =>
  rw [furtherByte_place hn₂]
  dsimp only [bind, Except.bind]
  rw [toNat_unit hn₂.lt]
  by_cases h₂ : b.toNat < 0xE0
  · rw [if_pos h₂] at hlen ⊢
    cases h with
    | nil => rfl
    | cons => cases hlen
  rw [if_neg h₂] at hlen ⊢
  cases h with
  | nil =>
    split_ifs at hlen <;> cases hlen
  | cons hn₃ h =>
  rw [furtherByte_place hn₃]
  dsimp only [bind, Except.bind]
  rw [toNat_unit hn₃.lt]
  by_cases h₃ : b.toNat < 0xF0
  · rw [if_pos h₃] at hlen ⊢
    cases h with
    | nil => rfl
    | cons => cases hlen
  rw [if_neg h₃] at hlen ⊢
  cases h with
  | nil => cases hlen
  | cons hn₄ h =>
    rw [furtherByte_place hn₄]
    dsimp only
    rw [toNat_unit hn₄.lt]
    cases h with
    | nil => rfl
    | cons => cases hlen

theorem decodeSequence_missing {ns : List Nat} (h : Run Place mid ns rest) (hlen : ns.length < following b)
    (hno : rest.head? ≠ some percent) : decodeSequence (UInt16.ofNat b.toNat) (mid ++ [0]) = .error malformed := by
  rw [decodeSequence, toNat_first]
  rw [following] at hlen
  by_cases h₁ : b.toNat < 0x80
  · rw [if_pos h₁] at hlen
    exact absurd hlen (Nat.not_lt_zero _)
  rw [if_neg h₁] at hlen ⊢
  cases h with
  | nil =>
    rw [furtherByte_missing hno]
    rfl
  | cons hn₂ h =>
  rw [furtherByte_place hn₂]
  dsimp only [bind, Except.bind]
  rw [List.length_cons] at hlen
  by_cases h₂ : b.toNat < 0xE0
  · rw [if_pos h₂] at hlen
    omega
  rw [if_neg h₂] at hlen ⊢
  cases h with
  | nil =>
    rw [furtherByte_missing hno]
  | cons hn₃ h =>
  rw [furtherByte_place hn₃]
  dsimp only [bind, Except.bind]
  rw [List.length_cons] at hlen
  by_cases h₃ : b.toNat < 0xF0
  · rw [if_pos h₃] at hlen
    omega
  rw [if_neg h₃] at hlen ⊢
  cases h with
  | nil =>
    rw [furtherByte_missing hno]
  | cons hn₄ h =>
    rw [List.length_cons] at hlen
    omega

theorem Escape.percent_cons (h : Escape text b rest) : ∃ t, text = percent :: t := by
  cases h with
  | @intro c₁ c₂ => exact ⟨c₁ :: c₂ :: rest, rfl⟩

theorem decodeTurn_percent : decodeTurn (percent :: text ++ [0]) = (decodeHex (text ++ [0])).bind fun r =>
    if r.1 = invalid then .ok (some ([percent], r.2)) else (decodeSequence r.1 r.2).map some := by
  simp only [decodeTurn, next, List.cons_append, bind, Except.bind]
  rw [if_neg (show percent ≠ 0 by decide), if_neg (show percent ≠ plus by decide), if_neg (not_not.2 rfl)]
  rfl

theorem decodeTurn_escape (h : Escape text b mid) :
    decodeTurn (text ++ [0]) = (decodeSequence (UInt16.ofNat b.toNat) (mid ++ [0])).map some := by
  obtain ⟨t, rfl⟩ := h.percent_cons
  have hvalid : UInt16.ofNat b.toNat ≠ invalid := unit_ne_invalid (b.toNat_lt.trans (by decide))
  rw [decodeTurn_percent, decodeHex_escape h]
  exact if_neg hvalid

theorem Taken.turn (h : Taken text us rest) : decodeTurn (text ++ [0]) = .ok (some (us, rest ++ [0])) := by
  cases h with
  | unit h0 hplus hpercent =>
    simp only [decodeTurn, next, List.cons_append, bind, Except.bind]
    rw [if_neg h0, if_neg hplus, if_pos hpercent]
    rfl
  | space => rfl
  | bare h =>
    cases h with
    | intro h =>
      rw [decodeTurn_percent, decodeHex_bare (.intro h)]
      rfl
  | bytes h hns hlen =>
    rw [decodeTurn_escape h, decodeSequence_taken hns hlen]
    rfl

theorem Missing.turn (h : Missing text) : decodeTurn (text ++ [0]) = .error malformed := by
  cases h with
  | intro h hns hlen hno =>
    rw [decodeTurn_escape h, decodeSequence_missing hns hlen hno]
    rfl

theorem Taken.hlUrlDecode (h : Taken text us rest) :
    hlUrlDecode (text ++ [0]) = (hlUrlDecode (rest ++ [0])).map (us ++ ·) := hlUrlDecode_turn h.turn

theorem Missing.hlUrlDecode (h : Missing text) : hlUrlDecode (text ++ [0]) = .error malformed :=
  hlUrlDecode_error h.turn

theorem hlUrlDecode_nil : hlUrlDecode ([] ++ [0]) = .ok [] := hlUrlDecode_end rfl

theorem Taken.length_lt (h : Taken text us rest) : rest.length < text.length := by
  have hlt := turn_shorter h.turn
  rw [List.length_append, List.length_append] at hlt
  omega

theorem Escape.suffix (h : Escape text b rest) : rest <:+ text := by
  cases h with
  | @intro c₁ c₂ => exact ⟨[percent, c₁, c₂], rfl⟩

theorem Bare.suffix (h : Bare text rest) : rest <:+ text := by
  cases h with
  | intro => exact List.suffix_cons percent rest

theorem Place.suffix (h : Place text n rest) : rest <:+ text := by
  cases h with
  | escape h => exact h.suffix
  | bare h => exact h.suffix

theorem Taken.suffix (h : Taken text us rest) : rest <:+ text := by
  cases h with
  | unit => exact List.suffix_cons _ rest
  | space => exact List.suffix_cons plus rest
  | bare h => exact h.suffix
  | bytes h hns => exact (hns.suffix fun _ _ _ => Place.suffix).trans h.suffix

theorem percent_view (t : List UInt16) : (∃ b rest, Escape (percent :: t) b rest) ∨ Bare (percent :: t) t := by
  by_cases h : ∃ b rest, Escape (percent :: t) b rest
  · exact .inl h
  · exact .inr (.intro fun b r hescape => h ⟨b, r, hescape⟩)

theorem place_of_percent (h : text.head? = some percent) : ∃ n rest, Place text n rest := by
  cases text with
  | nil => cases h
  | cons c t =>
    cases h
    obtain ⟨b, rest, hescape⟩ | hbare := percent_view t
    · exact ⟨b.toNat, rest, .escape hescape⟩
    · exact ⟨0xFFFF, t, .bare hbare⟩

theorem taken_view (h0 : ∀ c ∈ text, c ≠ 0) : text = [] ∨ Missing text ∨ ∃ us rest, Taken text us rest := by
  cases text with
  | nil => exact .inl rfl
  | cons c t =>
    refine .inr ?_
    by_cases hplus : c = plus
    · exact .inr ⟨[32], t, hplus ▸ .space t⟩
    by_cases hpercent : c = percent
    · rw [hpercent]
      obtain ⟨b, mid, hescape⟩ | hbare := percent_view t
      · obtain ⟨ns, rest, hns, hlen⟩ | ⟨ns, rest, hns, hlen, hno⟩ := Run.view Place (following b) mid
        · exact .inr ⟨_, rest, .bytes hescape hns hlen⟩
        · refine .inl (.intro hescape hns hlen fun hhead => ?_)
          obtain ⟨n, r, hplace⟩ := place_of_percent hhead
          exact hno n r hplace
      · exact .inr ⟨[percent], t, .bare hbare⟩
    · exact .inr ⟨[c], t, .unit (h0 c List.mem_cons_self) hplus hpercent t⟩

theorem piece_view (h0 : ∀ c ∈ text, c ≠ 0) : text = [] ∨ Malformed text ∨ ∃ us rest, Piece text us rest := by
  cases text with
  | nil => exact .inl rfl
  | cons c t =>
    refine .inr ?_
    by_cases hplus : c = plus
    · exact .inr ⟨[32], t, hplus ▸ .space t⟩
    by_cases hpercent : c = percent
    · rw [hpercent]
      obtain ⟨b, mid, hescape⟩ | hbare := percent_view t
      · obtain ⟨bs, rest, hbs, hlen⟩ | ⟨bs, rest, hbs, hlen, hno⟩ := Run.view Escape (following b) mid
        · by_cases hchar : ∃ c, String.utf8EncodeChar c = b :: bs
          · obtain ⟨c, hc⟩ := hchar
            exact .inr ⟨_, rest, .char c (hc ▸ .cons hescape hbs)⟩
          · exact .inr ⟨_, rest, .other (.cons hescape hbs) hlen (not_exists.1 hchar)⟩
        · exact .inl (.intro hescape hbs hlen hno)
      · exact .inr ⟨[percent], t, .bare hbare⟩
    · exact .inr ⟨[c], t, .unit (h0 c List.mem_cons_self) hplus hpercent t⟩

/-- A whole sequence of bytes with its units. -/
def Encodes (bs : List UInt8) (us : List UInt16) : Prop :=
  (∃ b tail, bs = b :: tail ∧ tail.length = following b) ∧ sequenceUnits (bs.map UInt8.toNat) = us

theorem following_eq {k : Nat} (hn : n < 0x100)
    (h : k = if n < 0x80 then 0 else if n < 0xE0 then 1 else if n < 0xF0 then 2 else 3) :
    k = following (UInt8.ofNat n) := by
  rw [following, toNat_byte hn]
  exact h

theorem encodes_one (hv : v < 0x80) : Encodes [UInt8.ofNat v] [UInt16.ofNat v] := by
  refine ⟨⟨_, _, rfl, following_eq (by omega) (if_pos hv).symm⟩, ?_⟩
  rw [List.map_singleton, toNat_byte (by omega)]
  rfl

theorem encodes_two (hv : v < 0x800) : Encodes (two v) [UInt16.ofNat v] := by
  rw [two_eq hv]
  refine ⟨⟨_, _, rfl, following_eq (by omega) ?_⟩, ?_⟩
  · rw [if_neg (by omega), if_pos (by omega)]
    rfl
  · rw [← unit2_eq hv, List.map_cons, List.map_singleton, toNat_byte (by omega), toNat_byte (by omega)]
    rfl

theorem encodes_three (hv : v < 0x10000) : Encodes (three v) [UInt16.ofNat v] := by
  rw [three_eq hv]
  refine ⟨⟨_, _, rfl, following_eq (by omega) ?_⟩, ?_⟩
  · rw [if_neg (by omega), if_neg (by omega), if_pos (by omega)]
    rfl
  · rw [← unit3_eq hv, List.map_cons, List.map_cons, List.map_singleton, toNat_byte (by omega), toNat_byte (by omega),
      toNat_byte (by omega)]
    rfl

theorem encodes_four {hi lo : Nat} (hhi : hi < 0x400) (hlo : lo < 0x400) : Encodes (four (0x10000 + (hi * 1024 + lo)))
    [UInt16.ofNat (0xD800 + hi), UInt16.ofNat (0xDC00 + lo)] := by
  rw [four_eq (by omega)]
  refine ⟨⟨_, _, rfl, following_eq (by omega) ?_⟩, ?_⟩
  · rw [if_neg (by omega), if_neg (by omega), if_neg (by omega)]
    rfl
  · rw [← highUnit_eq hlo, ← lowUnit_eq hlo, List.map_cons, List.map_cons, List.map_cons, List.map_singleton,
      toNat_byte (by omega), toNat_byte (by omega), toNat_byte (by omega), toNat_byte (by omega), sequenceUnits,
      lastPlanes_eq hhi hlo]

theorem encodes_form {bs : List UInt8} (h : Form v us bs) : Encodes bs us := by
  cases h with
  | one hv => exact encodes_one hv
  | two _ hhigh => exact encodes_two hhigh
  | three _ hhigh => exact encodes_three hhigh
  | four hhi hlo => exact encodes_four hhi hlo

theorem Encodes.taken {bs : List UInt8} (h : Encodes bs us) (hrun : Run Escape text bs rest) : Taken text us rest := by
  obtain ⟨⟨b, tail, rfl, hlen⟩, rfl⟩ := h
  cases hrun with
  | cons hescape htail =>
    have hplaces : Run Place _ _ _ := htail.map (f := UInt8.toNat) fun _ _ _ h => Place.escape h
    exact .bytes hescape hplaces ((List.length_map _).trans hlen)

theorem Piece.taken (h : Piece text us rest) : Taken text us rest := by
  cases h with
  | unit h0 hplus hpercent => exact .unit h0 hplus hpercent rest
  | space => exact .space rest
  | bare h => exact .bare h
  | char c h => exact (encodes_form (form c)).taken h
  | other h hlen => exact Encodes.taken ⟨⟨_, _, rfl, hlen⟩, rfl⟩ h

end HashLink.Url
