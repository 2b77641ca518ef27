import HashLink.Stdlib.Url
import HashLink.Stdlib.UtfSafety

/-! Which encoded texts the decoder rejects, and what it makes of the others.

The decoder gives back what was encoded, and the encoding of a text of characters is that of its UTF-8 byte by byte
unless a second surrogate is the last one. -/

namespace HashLink.Url

open Text Tokens Utf

inductive Spells : List UInt16 → List UInt16 → Prop where
  | nil : Spells [] []
  | cons {text rest us vs : List UInt16} (h : Piece text us rest) (hrest : Spells rest vs) : Spells text (us ++ vs)

/-- After some number of pieces there is a sequence whose bytes are not all escaped. -/
def Ill (text : List UInt16) : Prop := Reaches (fun text rest => ∃ us, Piece text us rest) Malformed text

/-- After some number of pieces, where a bare `%` counts as a further byte, a sequence lacks a `%`. -/
def Lacking (text : List UInt16) : Prop := Reaches (fun text rest => ∃ us, Taken text us rest) Missing text

/-- The decoder stays inside the text, rejects the texts with a sequence that is not escaped as a whole, and gives the
units of the others. -/
structure DecodesRight (text : Terminated UInt16) : Prop where
  inside : hlUrlDecode (text.chars ++ [0]) ≠ .error .outside
  rejects : hlUrlDecode (text.chars ++ [0]) = .error malformed ↔ Ill text.chars
  accepts : ¬Ill text.chars → ∃ us, Spells text.chars us ∧ hlUrlDecode (text.chars ++ [0]) = .ok us

variable {v : Nat} {c : UInt16} {us : List UInt16}

section

variable {text : List UInt16}

theorem Spells.hlUrlDecode (h : Spells text us) : hlUrlDecode (text ++ [0]) = .ok us := by
  induction h with
  | nil => exact hlUrlDecode_nil
  | cons h _ ih =>
    rw [h.taken.hlUrlDecode, ih]
    rfl

theorem Lacking.hlUrlDecode (h : Lacking text) : hlUrlDecode (text ++ [0]) = .error malformed := by
  refine h.induct (P := fun text => Url.hlUrlDecode (text ++ [0]) = .error malformed) (fun _ => Missing.hlUrlDecode) ?_
  rintro text rest ⟨us, h⟩ hrest
  rw [h.hlUrlDecode, hrest]
  rfl

theorem spells_of_not_ill (h0 : ∀ c ∈ text, c ≠ 0) (h : ¬Ill text) : ∃ us, Spells text us := by
  refine of_not_reaches (P := fun text => (∀ c ∈ text, c ≠ 0) → ∃ us, Spells text us) ?_ (fun text => ?_) h h0
  · rintro text rest ⟨us, hpiece⟩ hrest h0
    obtain ⟨vs, hvs⟩ := hrest fun c hc => h0 c (hpiece.taken.suffix.mem hc)
    exact ⟨us ++ vs, .cons hpiece hvs⟩
  · by_cases h0 : ∀ c ∈ text, c ≠ 0
    · obtain rfl | hmalformed | ⟨us, rest, hpiece⟩ := piece_view h0
      · exact .inl fun _ => ⟨[], .nil⟩
      · exact .inr (.inl hmalformed)
      · exact .inr (.inr ⟨rest, ⟨us, hpiece⟩, hpiece.taken.length_lt⟩)
    · exact .inl fun h => absurd h h0

theorem accepted_of_not_lacking (h0 : ∀ c ∈ text, c ≠ 0) (h : ¬Lacking text) :
    ∃ us, hlUrlDecode (text ++ [0]) = .ok us := by
  refine of_not_reaches (P := fun text => (∀ c ∈ text, c ≠ 0) → ∃ us, hlUrlDecode (text ++ [0]) = .ok us) ?_
    (fun text => ?_) h h0
  · rintro text rest ⟨us, htaken⟩ hrest h0
    obtain ⟨vs, hvs⟩ := hrest fun c hc => h0 c (htaken.suffix.mem hc)
    refine ⟨us ++ vs, ?_⟩
    rw [htaken.hlUrlDecode, hvs]
    rfl
  · by_cases h0 : ∀ c ∈ text, c ≠ 0
    · obtain rfl | hmissing | ⟨us, rest, htaken⟩ := taken_view h0
      · exact .inl fun _ => ⟨[], hlUrlDecode_nil⟩
      · exact .inr (.inl hmissing)
      · exact .inr (.inr ⟨rest, ⟨us, htaken⟩, htaken.length_lt⟩)
    · exact .inl fun h => absurd h h0

theorem decoded (text : Terminated UInt16) :
    Lacking text.chars ∨ ∃ us, hlUrlDecode (text.chars ++ [0]) = .ok us := by
  by_cases h : Lacking text.chars
  · exact .inl h
  · exact .inr (accepted_of_not_lacking text.nonzero h)

/-- The decoder is right about a text exactly when the text is not ill, or lacks a `%` where the decoder asks for one. -/
theorem decodesRight_iff (text : Terminated UInt16) :
    DecodesRight text ↔ (Ill text.chars → Lacking text.chars) := by
  constructor
  · intro hright hill
    obtain hlacking | ⟨us, hus⟩ := decoded text
    · exact hlacking
    · rw [hright.rejects.2 hill] at hus
      cases hus
  · intro hlacking
    by_cases hill : Ill text.chars
    · have herror := (hlacking hill).hlUrlDecode
      refine ⟨?_, iff_of_true herror hill, absurd hill⟩
      rw [herror]
      nofun
    · obtain ⟨us, hspells⟩ := spells_of_not_ill text.nonzero hill
      have hok := hspells.hlUrlDecode
      refine ⟨?_, iff_of_false ?_ hill, fun _ => ⟨us, hspells, hok⟩⟩ <;>
      · rw [hok]
        nofun

theorem not_escape_z (b : UInt8) (r : List UInt16) : ¬Escape [percent, 122, 122] b r := by
  intro h
  cases h with
  | intro hz =>
    cases hz with
    | digit h hn => exact absurd h (show (122 : Nat) ≠ _ by omega)
    | lower h hn => exact absurd h (show (122 : Nat) ≠ _ by omega)
    | upper h hn => exact absurd h (show (122 : Nat) ≠ _ by omega)

/-- `%C3%zz` is accepted, with the `%` before `zz` for a further byte. -/
theorem bareByte_not_decodesRight : ¬DecodesRight ⟨[37, 67, 51, 37, 122, 122], by simp⟩ := fun hright => by
  have hlead : Escape [37, 67, 51, 37, 122, 122] 0xC3 [37, 122, 122] :=
    .intro (.upper (n := 2) rfl (by decide)) (.digit (n := 3) rfl (by decide)) [37, 122, 122]
  have hill : Ill [37, 67, 51, 37, 122, 122] := .here (.intro hlead (.nil _) (by decide) not_escape_z)
  have hbytes : Taken [37, 67, 51, 37, 122, 122] (sequenceUnits [0xC3, 0xFFFF]) [122, 122] :=
    .bytes hlead (.cons (.bare (.intro not_escape_z)) (.nil _)) (by decide)
  have hz : ∀ rest, Taken (122 :: rest) [122] rest := .unit (by decide) (by decide) (by decide)
  have herror := hright.rejects.2 hill
  rw [hbytes.hlUrlDecode, (hz [122]).hlUrlDecode, (hz []).hlUrlDecode, hlUrlDecode_nil] at herror
  cases herror

end

theorem hex_digit {n : Nat} (hn : n < 16) : HexDigit (hex.getD n 0) n := by
  have hlow : ∀ n : Fin 16, n.val < 10 → (hex.getD n.val 0).toNat = 48 + n.val := by decide
  have hupper : ∀ n : Fin 16, 10 ≤ n.val → (hex.getD n.val 0).toNat = 65 + (n.val - 10) := by decide
  obtain hlt | hle := Nat.lt_or_ge n 10
  · exact .digit (hlow ⟨n, hn⟩ hlt) hlt
  · have hdigit := HexDigit.upper (hupper ⟨n, hn⟩ hle) (by dsimp only; omega)
    rwa [Nat.add_sub_cancel' hle] at hdigit

theorem escape_bufferHex (b : UInt8) (rest : List UInt16) : Escape (bufferHex b ++ rest) b rest := by
  have hlt := b.toNat_lt
  have hhigh : b.toNat >>> 4 = b.toNat / 16 := Nat.shiftRight_eq_div_pow ..
  have hlow : b.toNat &&& 0xF = b.toNat % 16 := and_low b.toNat 4
  have hbyte : UInt8.ofNat (16 * (b.toNat / 16) + b.toNat % 16) = b := by
    rw [Nat.div_add_mod, UInt8.ofNat_toNat]
  have hescape := Escape.intro (hex_digit (show b.toNat / 16 < 16 by omega))
    (hex_digit (Nat.mod_lt b.toNat (by decide))) rest
  rw [hbyte] at hescape
  rw [bufferHex, hhigh, hlow]
  exact hescape

theorem run_bufferHex (bs : List UInt8) (rest : List UInt16) : Run Escape (bs.flatMap bufferHex ++ rest) bs rest := by
  induction bs with
  | nil => exact .nil rest
  | cons b bs ih =>
    rw [List.flatMap_cons, List.append_assoc]
    exact .cons (escape_bufferHex b _) ih

theorem isPlain_ne (h : isPlain c = true) : c ≠ 0 ∧ c ≠ plus ∧ c ≠ percent := by
  refine ⟨?_, ?_, ?_⟩ <;>
  · rintro rfl
    exact absurd h (by decide)

theorem encodeUnits_view (h0 : c ≠ 0) (chars : List UInt16) :
    ∃ us rest piece, c :: chars = us ++ rest ∧ rest.length ≤ chars.length ∧
      encodeUnits (c :: chars ++ [0]) = (encodeUnits (rest ++ [0])).map (piece ++ ·) ∧
      encodedLength (c :: chars) = piece.length + encodedLength rest ∧ us.length ≤ piece.length ∧
      ∀ r, Taken (piece ++ r) us r := by
  have hlt := c.toNat_lt
  have hstep := encodeUnits.eq_def (c :: (chars ++ [0]))
  dsimp only at hstep
  have hsize := encodedLength.eq_def (c :: chars)
  dsimp only at hsize
  rw [if_neg h0] at hstep
  rw [List.cons_append]
  have hthree : ∀ r, Taken ((three c.toNat).flatMap bufferHex ++ r) [c] r := by
    intro r
    have h := (encodes_three hlt).taken (run_bufferHex _ r)
    rwa [UInt16.ofNat_toNat] at h
  by_cases hplain : isPlain c
  · obtain ⟨-, hplus, hpercent⟩ := isPlain_ne hplain
    rw [if_pos hplain] at hstep
    exact ⟨[c], chars, [c], rfl, Nat.le_refl _, hstep, by rw [hsize, if_pos hplain]; rfl, Nat.le_refl _,
      .unit h0 hplus hpercent⟩
  rw [if_neg hplain] at hstep hsize
  by_cases h₁ : c.toNat < 0x80
  · rw [if_pos h₁] at hstep hsize
    refine ⟨[c], chars, _, rfl, Nat.le_refl _, hstep, hsize, Nat.le_add_left 1 2, fun r => ?_⟩
    have h := (encodes_one h₁).taken (run_bufferHex _ r)
    rwa [UInt16.ofNat_toNat, List.flatMap_singleton] at h
  rw [if_neg h₁] at hstep hsize
  by_cases h₂ : c.toNat < 0x800
  · rw [if_pos h₂] at hstep hsize
    refine ⟨[c], chars, _, rfl, Nat.le_refl _, hstep, hsize, Nat.le_add_left 1 5, fun r => ?_⟩
    have h := (encodes_two h₂).taken (run_bufferHex _ r)
    rwa [UInt16.ofNat_toNat] at h
  rw [if_neg h₂] at hstep hsize
  by_cases h₃ : 0xD800 ≤ c.toNat ∧ c.toNat ≤ 0xDBFF
  · rw [if_pos (between_iff.2 h₃)] at hstep hsize
    cases chars with
    | nil => exact ⟨[c], [], _, rfl, Nat.le_refl _, hstep, hsize, Nat.le_add_left 1 8, hthree⟩
    | cons sur chars =>
      dsimp only [List.cons_append] at hstep hsize
      by_cases hsur : (decide (0xDC00 ≤ sur.toNat) && decide (sur.toNat < 0xDFFF)) = true
      · rw [if_pos hsur] at hstep hsize
        rw [Bool.and_eq_true, decide_eq_true_iff, decide_eq_true_iff] at hsur
        refine ⟨[c, sur], chars, _, rfl, Nat.le_succ _, hstep, hsize, Nat.le_add_left 2 10, fun r => ?_⟩
        have hhi : 0xD800 + (c.toNat - 0xD800) = c.toNat := by omega
        have hlo : 0xDC00 + (sur.toNat - 0xDC00) = sur.toNat := by omega
        have hpair := surrogatePair_eq (show c.toNat - 0xD800 < 0x400 by omega)
          (show sur.toNat - 0xDC00 < 0x400 by omega)
        have h := (encodes_four (show c.toNat - 0xD800 < 0x400 by omega)
          (show sur.toNat - 0xDC00 < 0x400 by omega)).taken (run_bufferHex _ r)
        rw [← hpair, hhi, hlo, UInt16.ofNat_toNat, UInt16.ofNat_toNat] at h
        exact h
      · rw [if_neg hsur] at hstep hsize
        exact ⟨[c], sur :: chars, _, rfl, Nat.le_refl _, hstep, hsize, Nat.le_add_left 1 8, hthree⟩
  · rw [if_neg (mt between_iff.1 h₃)] at hstep hsize
    exact ⟨[c], chars, _, rfl, Nat.le_refl _, hstep, hsize, Nat.le_add_left 1 8, hthree⟩

theorem decode_encode (chars : List UInt16) (h0 : ∀ c ∈ chars, c ≠ 0) :
    ∃ e, encodeUnits (chars ++ [0]) = some e ∧ e.length = encodedLength chars ∧ chars.length ≤ e.length ∧
      hlUrlDecode (e ++ [0]) = .ok chars := by
  induction hlen : chars.length using Nat.strongRecOn generalizing chars with
  | ind n ih =>
    cases chars with
    | nil => exact ⟨[], rfl, rfl, Nat.le_of_eq hlen.symm, hlUrlDecode_nil⟩
    | cons c chars =>
      obtain ⟨us, rest, piece, heq, hrest, hencode, hsize, hpiece, htaken⟩ :=
        encodeUnits_view (h0 c List.mem_cons_self) chars
      rw [heq] at h0
      obtain ⟨e, he, hlength, hle, hdecode⟩ := ih rest.length (by rw [← hlen, List.length_cons]; omega) rest
        (fun d hd => h0 d (List.mem_append_right us hd)) rfl
      refine ⟨piece ++ e, ?_, ?_, ?_, ?_⟩
      · rw [hencode, he]
        rfl
      · rw [List.length_append, hlength, hsize]
      · rw [← hlen, heq, List.length_append, List.length_append]
        omega
      · rw [(htaken e).hlUrlDecode, hdecode, heq]
        rfl

/-- A byte that is no letter, digit, `_`, `-` or `.` is escaped. -/
def percentByte (b : UInt8) : List UInt16 :=
  if isPlain (UInt16.ofNat b.toNat) then [UInt16.ofNat b.toNat] else bufferHex b

def LastSurrogate (c : Char) : Prop := 0x10000 ≤ c.toNat ∧ c.toNat % 0x400 = 0x3FF

instance (c : Char) : Decidable (LastSurrogate c) := inferInstanceAs (Decidable (_ ∧ _))

/-- The decoder gives back what is encoded, in buffers for both, and a text of characters is encoded as its UTF-8 is,
byte by byte. -/
structure EncodesRight (s : Terminated UInt16) : Prop where
  roundTrip : ∀ fresh, ∃ e, hlUrlEncode fresh (s.chars ++ [0]) = some (e ++ [0], e.length) ∧
    hlUrlDecode (e ++ [0]) = .ok s.chars ∧ bufferContent fresh s.chars = some (s.chars ++ [0], s.chars.length)
  percent : ∀ fresh l, s.chars = utf16Text l → ∃ bytes,
    hlUtf16ToUtf8Sized true (s.chars ++ [0]) = some (bytes ++ [0], (bytes.length : Int)) ∧
      hlUrlEncode fresh (s.chars ++ [0]) = some (bytes.flatMap percentByte ++ [0], (bytes.flatMap percentByte).length)

section Buffer

open StringBuffer Outcome

theorem totlen_bufferAppendNew (fresh s : Nat → UInt16) (b : HlBuffer) (len : Nat) :
    Meets (fun _ => True) (fun b' => b'.totlen = b.totlen) (bufferAppendNew fresh b s len) := by
  have hany : ∀ {α : Type} (x : Except BufferFault α), Meets (fun _ => True) (fun _ => True) x := by
    rintro α (_ | _) <;> trivial
  exact meets_bind (hany _) fun _ _ => meets_bind (hany _) fun _ _ => meets_bind (hany _) fun _ _ => meets_pure rfl

theorem totlen_hlBufferChar (fresh : Nat → UInt16) (b : HlBuffer) (c : UInt16) :
    Meets (fun _ => True) (fun b' => b'.totlen = b.totlen + 1) (hlBufferChar fresh b c) := by
  refine meets_bind (P := fun n => n = b.totlen + 1) ?_ ?_
  · unfold StringBuffer.int
    split <;> trivial
  · rintro n rfl
    split
    · exact totlen_bufferAppendNew fresh _ _ 1
    · split
      · unfold Units.store
        split <;> trivial
      · exact totlen_bufferAppendNew fresh _ _ 1

theorem totlen_chars (fresh : Nat → UInt16) (units : List UInt16) (b : HlBuffer) :
    Meets (fun _ => True) (fun b' => b'.totlen = b.totlen + units.length)
      ((units.map fun c => Append.char c fresh).foldlM Append.run b) := by
  induction units generalizing b with
  | nil => exact meets_pure rfl
  | cons c units ih =>
    rw [List.map_cons, List.foldlM_cons]
    refine meets_bind (totlen_hlBufferChar fresh b c) fun next hnext => (ih next).imp fun b' h => ?_
    rw [h, hnext, List.length_cons]
    omega

theorem appended_chars (fresh : Nat → UInt16) (units : List UInt16) :
    appended (units.map fun c => .char c fresh) = units := by
  rw [appended, List.flatMap_map]
  exact List.flatMap_singleton' units

/-- The content of the buffer is what was written to it when its block can be allocated, and is not there otherwise. -/
theorem bufferContent_eq (fresh : Nat → UInt16) (units : List UInt16) : bufferContent fresh units =
    if 2 * (units.length + 1) ≤ largestBlock then some (units ++ [0], units.length) else none := by
  split
  · rename_i hfits
    unfold largestBlock at hfits
    have happended := appended_chars fresh units
    have hempty : hlAllocBuffer.text = [] := rfl
    obtain ⟨b, hrun, hvalid, htext⟩ := run_ok (units.map fun c => .char c fresh) hlAllocBuffer_valid
      (by rw [happended, hempty, List.length_nil]; omega)
    rw [happended, hempty, List.nil_append] at htext
    obtain ⟨buf, hcontent, -, hbuf⟩ := hlBufferContent_ok fresh hvalid (by rw [htext]; omega)
    have htotal := hvalid.total
    rw [htext] at hcontent hbuf htotal
    have hroom : hlGcAllocNoptr (2 * (b.totlen + 1)) = some (2 * (b.totlen + 1)) := by
      rw [htotal]
      exact if_pos ⟨by omega, by unfold largestBlock; omega⟩
    refine Option.bind_eq_some_iff.mpr ⟨b, congrArg Except.toOption hrun, ?_⟩
    refine Option.bind_eq_some_iff.mpr ⟨_, hroom, ?_⟩
    refine Option.bind_eq_some_iff.mpr ⟨_, congrArg Except.toOption hcontent, ?_⟩
    dsimp only
    rw [hbuf]
  · rename_i hfits
    refine Option.eq_none_iff_forall_ne_some.mpr fun r hr => hfits ?_
    obtain ⟨b, hrun, hr⟩ := Option.bind_eq_some_iff.mp hr
    obtain ⟨room, hroom, -⟩ := Option.bind_eq_some_iff.mp hr
    have htotal : b.totlen = 0 + units.length := by
      have hmeets := totlen_chars fresh units hlAllocBuffer
      rw [runAppends] at hrun
      cases hresult : (units.map fun c => Append.char c fresh).foldlM Append.run hlAllocBuffer with
      | error e =>
        rw [hresult] at hrun
        cases hrun
      | ok b' =>
        rw [hresult] at hrun hmeets
        cases hrun
        exact hmeets
    unfold hlGcAllocNoptr at hroom
    split at hroom
    · rename_i hle
      rw [htotal] at hle
      omega
    · cases hroom

end Buffer

theorem not_isPlain (h : 0x80 ≤ c.toNat) : ¬isPlain c = true := by
  intro hplain
  simp only [isPlain, isLetter, isDigit, Bool.or_eq_true, between_iff, decide_eq_true_iff, ← UInt16.toNat_inj] at hplain
  obtain ((((hc | hc) | hc) | hc) | hc) | hc := hplain
  · omega
  · omega
  · omega
  all_goals
    rw [hc] at h
    exact absurd h (by decide)

theorem percentByte_high {n : Nat} (hlow : 0x80 ≤ n) (hhigh : n < 0x100) :
    percentByte (UInt8.ofNat n) = bufferHex (UInt8.ofNat n) := by
  rw [percentByte, toNat_byte hhigh, if_neg (not_isPlain (by rwa [toNat_unit (by omega)]))]

theorem percentByte_two (hv : v < 0x800) : (two v).flatMap percentByte = (two v).flatMap bufferHex := by
  rw [two_eq hv]
  simp only [List.flatMap_cons, List.flatMap_nil]
  rw [percentByte_high (by omega) (by omega), percentByte_high (by omega) (by omega)]

theorem percentByte_three (hv : v < 0x10000) :
    (three v).flatMap percentByte = (three v).flatMap bufferHex := by
  rw [three_eq hv]
  simp only [List.flatMap_cons, List.flatMap_nil]
  rw [percentByte_high (by omega) (by omega), percentByte_high (by omega) (by omega),
    percentByte_high (by omega) (by omega)]

theorem percentByte_four (hv : v < 0x110000) :
    (four v).flatMap percentByte = (four v).flatMap bufferHex := by
  rw [four_eq hv]
  simp only [List.flatMap_cons, List.flatMap_nil]
  rw [percentByte_high (by omega) (by omega), percentByte_high (by omega) (by omega),
    percentByte_high (by omega) (by omega), percentByte_high (by omega) (by omega)]

def encodedForm (v : Nat) (us : List UInt16) (bs : List UInt8) : List UInt16 :=
  if 0x10000 ≤ v ∧ v % 0x400 = 0x3FF then us.flatMap fun u => (three u.toNat).flatMap bufferHex
  else bs.flatMap percentByte

theorem encodeUnits_three (h₁ : 0x800 ≤ c.toNat) (h₂ : ¬(0xD800 ≤ c.toNat ∧ c.toNat ≤ 0xDBFF))
    (rest : List UInt16) :
    encodeUnits (c :: rest) = (encodeUnits rest).map ((three c.toNat).flatMap bufferHex ++ ·) := by
  have h0 : c ≠ 0 := by
    rintro rfl
    exact absurd h₁ (by decide)
  rw [encodeUnits.eq_def]
  dsimp only
  rw [if_neg h0, if_neg (not_isPlain (by omega)), if_neg (by omega), if_neg (by omega), if_neg (mt between_iff.1 h₂)]

theorem encodeUnits_form {bs : List UInt8} (h : Form v us bs) (hv : v ≠ 0) (rest : List UInt16) :
    encodeUnits (us ++ rest) = (encodeUnits rest).map (encodedForm v us bs ++ ·) := by
  cases h with
  | one hlt =>
    rw [encodedForm, if_neg (by omega), List.singleton_append, encodeUnits.eq_def]
    dsimp only
    rw [if_neg (unit_ne_zero (by omega) hv), List.flatMap_singleton, percentByte, toNat_byte (by omega),
      toNat_unit (by omega)]
    split
    · rfl
    · rfl
  | two hlow hhigh =>
    have hplain : ¬isPlain (UInt16.ofNat v) = true := not_isPlain (by rwa [toNat_unit (by omega)])
    rw [encodedForm, if_neg (by omega), List.singleton_append, encodeUnits.eq_def]
    dsimp only
    rw [if_neg (unit_ne_zero (by omega) hv), if_neg hplain, toNat_unit (by omega), if_neg (by omega), if_pos hhigh,
      percentByte_two hhigh]
  | three hlow hhigh hpart =>
    rw [encodedForm, if_neg (by omega), List.singleton_append, percentByte_three hhigh,
      encodeUnits_three (by rw [toNat_unit hhigh]; omega) (by rw [toNat_unit hhigh]; omega), toNat_unit hhigh]
  | @four hi lo hhi hlo =>
    have hhigh : (UInt16.ofNat (0xD800 + hi)).toNat = 0xD800 + hi := toNat_unit (by omega)
    have hlow : (UInt16.ofNat (0xDC00 + lo)).toNat = 0xDC00 + lo := toNat_unit (by omega)
    rw [encodedForm, List.cons_append, List.singleton_append, encodeUnits.eq_def]
    dsimp only
    rw [if_neg (unit_ne_zero (by omega) (by omega)), if_neg (not_isPlain (by omega)), hhigh, hlow, if_neg (by omega),
      if_neg (by omega), if_pos (between_iff.2 (by omega))]
    by_cases hlast : lo = 0x3FF
    · -- the last surrogate is not taken as the second unit, so each unit is encoded alone
      have hsur : ¬(decide (0xDC00 ≤ 0xDC00 + lo) && decide (0xDC00 + lo < 0xDFFF)) = true := by
        rw [Bool.and_eq_true, decide_eq_true_iff, decide_eq_true_iff]
        omega
      rw [if_neg hsur, if_pos (by omega), encodeUnits_three (by omega) (by omega), Option.map_map, hlow]
      simp only [Function.comp_def, List.flatMap_cons, List.flatMap_nil, List.append_nil, List.append_assoc, hhigh,
        hlow]
    · have hsur : (decide (0xDC00 ≤ 0xDC00 + lo) && decide (0xDC00 + lo < 0xDFFF)) = true := by
        rw [Bool.and_eq_true, decide_eq_true_iff, decide_eq_true_iff]
        omega
      rw [if_pos hsur, if_neg (by omega), surrogatePair_eq hhi hlo, percentByte_four (by omega)]

def encodedChar (c : Char) : List UInt16 := encodedForm c.toNat (utf16 c) (String.utf8EncodeChar c)

theorem encodeUnits_text {l : List Char} (h : NoZero l) :
    encodeUnits (utf16Text l ++ [0]) = some (l.flatMap encodedChar) := by
  induction l with
  | nil => rfl
  | cons c l ih =>
    have htail : NoZero l := fun d hd => h d (List.mem_cons_of_mem c hd)
    rw [utf16Text, List.flatMap_cons, List.flatMap_cons, List.append_assoc,
      encodeUnits_form (form c) (h c List.mem_cons_self), ← utf16Text, ih htail]
    rfl

theorem length_bufferHex (bs : List UInt8) : (bs.flatMap bufferHex).length = 3 * bs.length := by
  induction bs with
  | nil => rfl
  | cons b bs ih =>
    rw [List.flatMap_cons, List.length_append, ih, List.length_cons]
    change 3 + 3 * bs.length = 3 * (bs.length + 1)
    omega

theorem length_encodedForm {bs : List UInt8} (h : Form v us bs) :
    (encodedForm v us bs).length =
      (bs.flatMap percentByte).length + if 0x10000 ≤ v ∧ v % 0x400 = 0x3FF then 6 else 0 := by
  rw [encodedForm]
  split
  · rename_i hlast
    cases h with
    | one hlt => omega
    | two => omega
    | three => omega
    | four hhi hlo =>
      rw [percentByte_four (by omega), length_bufferHex]
      simp only [List.flatMap_cons, List.flatMap_nil, List.append_nil, List.length_append, length_bufferHex]
      rfl
  · rfl

theorem length_encodedText (l : List Char) : (l.flatMap encodedChar).length =
    ((utf8Text l).flatMap percentByte).length + 6 * l.countP (fun c => decide (LastSurrogate c)) := by
  induction l with
  | nil => rfl
  | cons c l ih =>
    have hchar := length_encodedForm (form c)
    rw [utf8Text, List.flatMap_cons, List.flatMap_cons, List.flatMap_append, List.length_append, List.length_append,
      ← utf8Text, ih, encodedChar, hchar, List.countP_cons]
    have hdecide : decide (LastSurrogate c) = true ↔ 0x10000 ≤ c.toNat ∧ c.toNat % 0x400 = 0x3FF := decide_eq_true_iff
    by_cases hlast : 0x10000 ≤ c.toNat ∧ c.toNat % 0x400 = 0x3FF
    · rw [if_pos hlast, if_pos (hdecide.2 hlast)]
      omega
    · rw [if_neg hlast, if_neg (mt hdecide.1 hlast)]
      omega

theorem encodedText_iff (l : List Char) :
    l.flatMap encodedChar = (utf8Text l).flatMap percentByte ↔ ∀ c ∈ l, ¬LastSurrogate c := by
  constructor
  · intro heq c hc hlast
    have hlength := length_encodedText l
    rw [heq] at hlength
    have hcount : l.countP (fun c => decide (LastSurrogate c)) = 0 := by omega
    exact List.countP_eq_zero.1 hcount c hc (decide_eq_true hlast)
  · intro h
    induction l with
    | nil => rfl
    | cons c l ih =>
      rw [utf8Text, List.flatMap_cons, List.flatMap_cons, List.flatMap_append, ← utf8Text,
        ih fun d hd => h d (List.mem_cons_of_mem c hd)]
      exact congrArg (· ++ _) (if_neg (h c List.mem_cons_self))

theorem hlUrlEncode_eq (fresh : Nat → UInt16) {str e : List UInt16} (h : encodeUnits str = some e) :
    hlUrlEncode fresh str = bufferContent fresh e := by
  rw [hlUrlEncode, h]
  rfl

theorem bufferContent_of_fits (fresh : Nat → UInt16) {units : List UInt16} {n : Nat} (hle : units.length ≤ n)
    (hfits : 2 * (n + 1) ≤ largestBlock) : bufferContent fresh units = some (units ++ [0], units.length) := by
  rw [bufferContent_eq, if_pos (by omega)]

theorem length_le_percentByte (bytes : List UInt8) : bytes.length ≤ (bytes.flatMap percentByte).length := by
  induction bytes with
  | nil => exact Nat.le_refl _
  | cons b bytes ih =>
    have hpos : 1 ≤ (percentByte b).length := by
      rw [percentByte]
      split
      · exact Nat.le_refl 1
      · exact Nat.le_add_left 1 2
    rw [List.flatMap_cons, List.length_append, List.length_cons]
    omega

theorem hlUtf16ToUtf8_text {l : List Char} (h : NoZero l) :
    hlUtf16ToUtf8 true (utf16Text l ++ [0]) = some (utf8Text l ++ [0], (utf8Text l).length) := by
  rw [hlUtf16ToUtf8, countUtf8_text h, writeUtf8_text h]
  rfl

/-- The text is encoded and decoded right exactly when the block of the encoded one can be allocated, and no character
of it ends with the last surrogate if it is a text of characters. -/
theorem encodesRight_iff (s : Terminated UInt16) : EncodesRight s ↔
    2 * (encodedLength s.chars + 1) ≤ largestBlock ∧ ∀ l, s.chars = utf16Text l → ∀ c ∈ l, ¬LastSurrogate c := by
  obtain ⟨e, hencode, hlength, hle, hdecode⟩ := decode_encode s.chars s.nonzero
  have hzero : ∀ {l}, s.chars = utf16Text l → NoZero l := by
    intro l hl c hc h0
    have hmem : (0 : UInt16) ∈ utf16Text l := by
      refine List.mem_flatMap.2 ⟨c, hc, ?_⟩
      rw [utf16, h0]
      exact List.mem_singleton.2 rfl
    exact s.nonzero 0 (hl ▸ hmem) rfl
  constructor
  · intro h
    have hfits : 2 * (encodedLength s.chars + 1) ≤ largestBlock := by
      obtain ⟨e', hrun, -⟩ := h.roundTrip fun _ => 0
      rw [hlUrlEncode_eq _ hencode, bufferContent_eq, hlength] at hrun
      by_contra hlarge
      rw [if_neg (by omega)] at hrun
      cases hrun
    refine ⟨hfits, fun l hl => ?_⟩
    obtain ⟨bytes, hbytes, hrun⟩ := h.percent (fun _ => 0) l hl
    have hloops := hlUtf16ToUtf8_text (hzero hl)
    rw [← hl] at hloops
    obtain ⟨⟨out, n⟩, hout, hbytes⟩ := Option.bind_eq_some_iff.mp hbytes
    cases hloops.symm.trans hout
    obtain ⟨room, -, hbytes⟩ := Option.bind_eq_some_iff.mp hbytes
    have hsame : utf8Text l = bytes := by
      split at hbytes
      · exact List.append_cancel_right (congrArg Prod.fst (Option.some.inj hbytes))
      · cases hbytes
    rw [hlUrlEncode_eq _ hencode, bufferContent_of_fits _ (Nat.le_of_eq hlength) hfits] at hrun
    have heq := List.append_cancel_right (congrArg Prod.fst (Option.some.inj hrun))
    rw [hl, encodeUnits_text (hzero hl)] at hencode
    exact (encodedText_iff l).1 (by rw [Option.some.inj hencode, heq, hsame])
  · rintro ⟨hfits, hlast⟩
    refine ⟨fun fresh => ⟨e, ?_, hdecode, ?_⟩, fun fresh l hl => ⟨utf8Text l, ?_, ?_⟩⟩
    · rw [hlUrlEncode_eq _ hencode, bufferContent_of_fits _ (Nat.le_of_eq hlength) hfits]
    · exact bufferContent_of_fits _ (hle.trans (Nat.le_of_eq hlength)) hfits
    all_goals
      have heq : e = (utf8Text l).flatMap percentByte := by
        rw [hl, encodeUnits_text (hzero hl), (encodedText_iff l).2 (hlast l hl)] at hencode
        exact (Option.some.inj hencode).symm
    · have hloops := hlUtf16ToUtf8_text (hzero hl)
      have hbytes := length_le_percentByte (utf8Text l)
      rw [← heq, hlength] at hbytes
      rw [hl]
      refine hlUtf16ToUtf8Sized_of_fits hloops (by omega) ?_
      rw [List.length_append, List.length_singleton]
    · rw [hlUrlEncode_eq _ hencode, bufferContent_of_fits _ (Nat.le_of_eq hlength) hfits, heq]

/-- The character 103FF ends with the last surrogate. -/
theorem lastSurrogate_not_encodesRight : ¬EncodesRight ⟨[0xD800, 0xDFFF], by simp⟩ := fun h => by
  have hchar : ([0xD800, 0xDFFF] : List UInt16) = utf16Text [Char.ofNat 0x103FF] := by decide
  exact ((encodesRight_iff _).mp h).2 _ hchar _ (List.mem_singleton.mpr rfl) (by decide)

end HashLink.Url
