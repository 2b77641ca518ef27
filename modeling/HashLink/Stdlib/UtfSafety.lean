import HashLink.Lib.Tokens
import HashLink.Stdlib.Utf

/-! The conversions of texts that may be malformed: when they stay inside the memory of the text, and when the length
of a text of bytes is that of the units that are written. -/

namespace HashLink.Text

open Tokens

structure Terminated (α : Type) [OfNat α 0] where
  chars : List α
  nonzero : ∀ c ∈ chars, c ≠ 0

/-- A text to convert. A length of zero stands for a terminator, so that an empty text without one is not one. -/
inductive Input where
  | utf8 (text : Terminated UInt8)
  | utf16 (text : Terminated UInt16)
  | delimited (units : List UInt16)

/-- No byte after the terminator is read, and the length is that of what is written. -/
def SafeUtf8 (bytes : List UInt8) : Prop :=
  ∃ n units ret, hlUtf8Length (bytes ++ [0]) = some n ∧ hlFromUtf8 n (bytes ++ [0]) = some (units, ret) ∧
    units.length = n ∧ ret = n

def SafeUtf16 (units : List UInt16) : Prop :=
  (hlUtf16ToUtf8 true (units ++ [0])).isSome ∧ (ustrlenUtf8 (units ++ [0])).isSome ∧
    ∀ outSize, (utostr outSize (units ++ [0])).isSome

def Input.Safe : Input → Prop
  | utf8 text => SafeUtf8 text.chars
  | utf16 text => SafeUtf16 text.chars
  | delimited units => (hlUtf16ToUtf8 units.isEmpty units).isSome

/-- A sequence of bytes that both passes over a text take as one, with the number of its units. -/
inductive Sequence : List UInt8 → Nat → Prop where
  | one {c : UInt8} (hc : c.toNat < 0x80) (h0 : c ≠ 0) : Sequence [c] 1
  | two {c c₁ : UInt8} (hc : 0xC0 ≤ c.toNat ∧ c.toNat < 0xE0) (h₁ : 0x80 ≤ c₁.toNat) : Sequence [c, c₁] 1
  | three {c c₁ c₂ : UInt8} (hc : 0xE0 ≤ c.toNat ∧ c.toNat < 0xF0) (h₁ : 0x80 ≤ c₁.toNat) (h₂ : 0x80 ≤ c₂.toNat) :
      Sequence [c, c₁, c₂] 1
  | four {c c₁ c₂ c₃ : UInt8} (hc : 0xF0 ≤ c.toNat ∧ c.toNat < 0xF8) (h₁ : 0x80 ≤ c₁.toNat) (h₂ : 0x80 ≤ c₂.toNat)
      (h₃ : 0x80 ≤ c₃.toNat) : Sequence [c, c₁, c₂, c₃] 2

/-- A text that starts with a byte of no sequence, or ends too early after the first byte of one. -/
inductive Broken : List UInt8 → Prop where
  | three {c : UInt8} (hc : 0xE0 ≤ c.toNat ∧ c.toNat < 0xF0) : Broken [c]
  | four {c : UInt8} {rest : List UInt8} (hc : 0xF0 ≤ c.toNat ∧ c.toNat < 0xF8) (hrest : rest.length < 2) :
      Broken (c :: rest)
  | above {c : UInt8} {rest : List UInt8} (hc : 0xF8 ≤ c.toNat) : Broken (c :: rest)

/-- A unit that is no surrogate, or a surrogate with the unit after it. -/
inductive Character (terminated : Bool) : List UInt16 → Prop where
  | plain {u : UInt16} (h0 : terminated = true → u ≠ 0) (hu : ¬(0xD800 ≤ u.toNat ∧ u.toNat ≤ 0xDFFF)) :
      Character terminated [u]
  | pair {hi lo : UInt16} (hhi : 0xD800 ≤ hi.toNat ∧ hi.toNat ≤ 0xDFFF) : Character terminated [hi, lo]

inductive Lone : List UInt16 → Prop where
  | intro {u : UInt16} (hu : 0xD800 ≤ u.toNat ∧ u.toNat ≤ 0xDFFF) : Lone [u]

/-- No sequence of bytes is cut off by the terminator or starts with a byte of none, where the length did not stop
before, and no surrogate that is not itself the second of two is the last unit. -/
def Input.Whole : Input → Prop
  | utf8 text => ¬Reaches (Starts fun s => ∃ n, Sequence s n) Broken text.chars
  | utf16 text => ¬Reaches (Starts (Character true)) Lone text.chars
  | delimited units => units ≠ [] ∧ ¬Reaches (Starts (Character false)) Lone units

variable {s bytes : List UInt8} {n : Nat}

theorem hlUtf8Length_sequence (h : Sequence s n) (rest : List UInt8) :
    hlUtf8Length (s ++ rest) = (hlUtf8Length rest).map (n + ·) := by
  cases h with
  | one hc h0 =>
    rw [List.singleton_append, hlUtf8Length.eq_def]
    dsimp only
    rw [if_pos hc, if_neg h0]
  | two hc h₁ =>
    rw [List.cons_append, List.singleton_append, hlUtf8Length.eq_def]
    dsimp only
    rw [if_neg (by omega), if_neg (by omega), if_pos hc.2, if_pos ((high_iff _).2 h₁)]
  | three hc h₁ h₂ =>
    rw [List.cons_append, List.cons_append, List.singleton_append, hlUtf8Length.eq_def]
    dsimp only
    rw [if_neg (by omega), if_neg (by omega), if_neg (by omega), if_pos hc.2, (high_iff _).2 h₁, (high_iff _).2 h₂]
    rfl
  | four hc h₁ h₂ h₃ =>
    rw [List.cons_append, List.cons_append, List.cons_append, List.singleton_append, hlUtf8Length.eq_def]
    dsimp only
    rw [if_neg (by omega), if_neg (by omega), if_neg (by omega), if_neg (by omega), if_pos hc.2, (high_iff _).2 h₁,
      (high_iff _).2 h₂, (high_iff _).2 h₃]
    rfl

theorem hlFromUtf8_sequence (h : Sequence s n) :
    ∃ us : List UInt16, us.length = n ∧ ∀ (room : Nat) (rest : List UInt8),
      hlFromUtf8 (n + room) (s ++ rest) = (hlFromUtf8 room rest).map fun r => (us ++ r.1, n + r.2) := by
  cases h with
  | @one c hc h0 =>
    refine ⟨[UInt16.ofNat c.toNat], rfl, fun room rest => ?_⟩
    rw [List.singleton_append, Nat.add_comm 1 room, hlFromUtf8.eq_def]
    dsimp only
    rw [if_pos hc, if_neg h0]
    rfl
  | @two c c₁ hc h₁ =>
    refine ⟨[unit2 c.toNat c₁.toNat], rfl, fun room rest => ?_⟩
    rw [List.cons_append, List.singleton_append, Nat.add_comm 1 room, hlFromUtf8.eq_def]
    dsimp only
    rw [if_neg (by omega), if_pos hc.2]
    rfl
  | @three c c₁ c₂ hc h₁ h₂ =>
    refine ⟨[unit3 c.toNat c₁.toNat c₂.toNat], rfl, fun room rest => ?_⟩
    rw [List.cons_append, List.cons_append, List.singleton_append, Nat.add_comm 1 room, hlFromUtf8.eq_def]
    dsimp only
    rw [if_neg (by omega), if_neg (by omega), if_pos hc.2]
    rfl
  | @four c c₁ c₂ c₃ hc h₁ h₂ h₃ =>
    refine ⟨[highUnit (lastPlanes c.toNat c₁.toNat c₂.toNat c₃.toNat),
      lowUnit (lastPlanes c.toNat c₁.toNat c₂.toNat c₃.toNat)], rfl, fun room rest => ?_⟩
    rw [List.cons_append, List.cons_append, List.cons_append, List.singleton_append, Nat.add_comm 2 room,
      hlFromUtf8.eq_def]
    dsimp only
    rw [if_neg (by omega), if_neg (by omega), if_neg (by omega)]
    rfl

theorem safeUtf8_sequence (h : Sequence s n) (rest : List UInt8) :
    SafeUtf8 (s ++ rest) ↔ SafeUtf8 rest := by
  obtain ⟨us, hus, hfrom⟩ := hlFromUtf8_sequence h
  unfold SafeUtf8
  rw [List.append_assoc, hlUtf8Length_sequence h]
  constructor
  · rintro ⟨m, units, ret, hlength, hdecode, hunits, hret⟩
    obtain ⟨k, hk, rfl⟩ := Option.map_eq_some_iff.1 hlength
    rw [hfrom] at hdecode
    obtain ⟨⟨vs, r⟩, hvs, heq⟩ := Option.map_eq_some_iff.1 hdecode
    cases heq
    dsimp only at hunits hret
    rw [List.length_append] at hunits
    exact ⟨k, vs, r, hk, hvs, by omega, by omega⟩
  · rintro ⟨k, vs, r, hk, hvs, hlen, hr⟩
    refine ⟨n + k, us ++ vs, n + r, by rw [hk]; rfl, by rw [hfrom, hvs]; rfl, ?_, by omega⟩
    rw [List.length_append]
    omega

theorem not_safeUtf8_of_length (h : hlUtf8Length (bytes ++ [0]) = none) : ¬SafeUtf8 bytes := by
  rintro ⟨n, units, ret, hlength, -⟩
  rw [h] at hlength
  cases hlength

theorem Broken.not_safeUtf8 (h : Broken bytes) : ¬SafeUtf8 bytes := by
  cases h with
  | three hc =>
    refine not_safeUtf8_of_length ?_
    rw [List.singleton_append, hlUtf8Length.eq_def]
    dsimp only
    rw [if_neg (by omega), if_neg (by omega), if_neg (by omega), if_pos hc.2]
  | @four c rest hc hrest =>
    refine not_safeUtf8_of_length ?_
    rw [List.cons_append, hlUtf8Length.eq_def]
    dsimp only
    rw [if_neg (by omega), if_neg (by omega), if_neg (by omega), if_neg (by omega), if_pos hc.2]
    rcases rest with _ | ⟨d, _ | ⟨e, rest⟩⟩
    · rfl
    · rfl
    · rw [List.length_cons, List.length_cons] at hrest
      omega
  | @above c rest hc =>
    rintro ⟨n, units, ret, hlength, hdecode, hunits, -⟩
    rw [List.cons_append, hlUtf8Length.eq_def] at hlength
    dsimp only at hlength
    rw [if_neg (by omega), if_neg (by omega), if_neg (by omega), if_neg (by omega), if_neg (by omega)] at hlength
    cases hlength
    rw [List.cons_append, hlFromUtf8.eq_def] at hdecode
    dsimp only at hdecode
    rw [if_neg (by omega), if_neg (by omega), if_neg (by omega)] at hdecode
    -- the room for one unit is not enough for two, and none is written
    split at hdecode <;> cases hdecode
    cases hunits

theorem safeUtf8_of_stop (h : hlUtf8Length (bytes ++ [0]) = some 0) : SafeUtf8 bytes :=
  ⟨0, [], 0, h, rfl, rfl, rfl⟩

theorem not_high {c : UInt8} (h : ¬0x80 ≤ c.toNat) : high c = false := Bool.eq_false_iff.2 (mt (high_iff c).1 h)

theorem utf8_view (bytes : List UInt8) : SafeUtf8 bytes ∨ Broken bytes ∨
    ∃ rest, Starts (fun s => ∃ n, Sequence s n) bytes rest := by
  cases bytes with
  | nil => exact .inl (safeUtf8_of_stop rfl)
  | cons c s =>
    by_cases h₁ : c.toNat < 0x80
    · by_cases h0 : c = 0
      · refine .inl (safeUtf8_of_stop ?_)
        rw [List.cons_append, hlUtf8Length.eq_def]
        dsimp only
        rw [if_pos h₁, if_pos h0]
      · exact .inr (.inr ⟨s, .intro (t := [c]) ⟨1, .one h₁ h0⟩ (List.cons_ne_nil _ _) s⟩)
    by_cases h₂ : c.toNat < 0xC0
    · refine .inl (safeUtf8_of_stop ?_)
      rw [List.cons_append, hlUtf8Length.eq_def]
      dsimp only
      rw [if_neg h₁, if_pos h₂]
    by_cases h₃ : c.toNat < 0xE0
    · obtain ⟨c₁, s', hs⟩ : ∃ c₁ s', s ++ [0] = c₁ :: s' := by cases s <;> exact ⟨_, _, rfl⟩
      by_cases hc₁ : 0x80 ≤ c₁.toNat
      · cases s with
        | nil =>
          cases hs
          exact absurd hc₁ (by decide)
        | cons d s =>
          cases hs
          exact .inr (.inr ⟨s, .intro (t := [c, c₁]) ⟨1, .two (by omega) hc₁⟩ (List.cons_ne_nil _ _) s⟩)
      · refine .inl (safeUtf8_of_stop ?_)
        rw [List.cons_append, hs, hlUtf8Length.eq_def]
        dsimp only
        rw [if_neg h₁, if_neg h₂, if_pos h₃, not_high hc₁]
        rfl
    by_cases h₄ : c.toNat < 0xF0
    · rcases s with _ | ⟨c₁, _ | ⟨c₂, s⟩⟩
      · exact .inr (.inl (.three (by omega)))
      · refine .inl (safeUtf8_of_stop ?_)
        rw [List.cons_append, hlUtf8Length.eq_def]
        dsimp only [List.cons_append, List.nil_append]
        rw [if_neg h₁, if_neg h₂, if_neg h₃, if_pos h₄, not_high (show ¬0x80 ≤ (0 : UInt8).toNat by decide),
          Bool.and_false]
        rfl
      · by_cases hhigh : 0x80 ≤ c₁.toNat ∧ 0x80 ≤ c₂.toNat
        · have hseq : Sequence [c, c₁, c₂] 1 := .three (by omega) hhigh.1 hhigh.2
          exact .inr (.inr ⟨s, .intro (t := [c, c₁, c₂]) ⟨1, hseq⟩ (List.cons_ne_nil _ _) s⟩)
        · refine .inl (safeUtf8_of_stop ?_)
          rw [List.cons_append, hlUtf8Length.eq_def]
          dsimp only [List.cons_append]
          rw [if_neg h₁, if_neg h₂, if_neg h₃, if_pos h₄, if_neg]
          rwa [Bool.and_eq_true, high_iff, high_iff]
    by_cases h₅ : c.toNat < 0xF8
    · rcases s with _ | ⟨c₁, _ | ⟨c₂, _ | ⟨c₃, s⟩⟩⟩
      · exact .inr (.inl (.four (by omega) (by decide)))
      · exact .inr (.inl (.four (by omega) Nat.one_lt_two))
      · refine .inl (safeUtf8_of_stop ?_)
        rw [List.cons_append, hlUtf8Length.eq_def]
        dsimp only [List.cons_append, List.nil_append]
        rw [if_neg h₁, if_neg h₂, if_neg h₃, if_neg h₄, if_pos h₅,
          not_high (show ¬0x80 ≤ (0 : UInt8).toNat by decide), Bool.and_false]
        rfl
      · by_cases hhigh : (0x80 ≤ c₁.toNat ∧ 0x80 ≤ c₂.toNat) ∧ 0x80 ≤ c₃.toNat
        · have hseq : Sequence [c, c₁, c₂, c₃] 2 := .four (by omega) hhigh.1.1 hhigh.1.2 hhigh.2
          exact .inr (.inr ⟨s, .intro (t := [c, c₁, c₂, c₃]) ⟨2, hseq⟩ (List.cons_ne_nil _ _) s⟩)
        · refine .inl (safeUtf8_of_stop ?_)
          rw [List.cons_append, hlUtf8Length.eq_def]
          dsimp only [List.cons_append]
          rw [if_neg h₁, if_neg h₂, if_neg h₃, if_neg h₄, if_pos h₅, if_neg]
          rwa [Bool.and_eq_true, Bool.and_eq_true, high_iff, high_iff, high_iff]
    · exact .inr (.inl (.above (by omega)))

theorem safeUtf8_iff (bytes : List UInt8) :
    SafeUtf8 bytes ↔ ¬Reaches (Starts fun s => ∃ n, Sequence s n) Broken bytes := by
  refine iff_not_reaches (P := SafeUtf8) (fun _ _ h => ?_) (fun _ h => h.not_safeUtf8) (fun text => ?_) bytes
  · obtain ⟨⟨n, hs⟩, -, rest⟩ := h
    exact safeUtf8_sequence hs _
  · exact (utf8_view text).imp_right (.imp_right fun ⟨rest, h⟩ => ⟨rest, h, h.length_lt⟩)

variable {terminated : Bool} {t : List UInt16}

theorem countUtf8_character (h : Character terminated t) (rest : List UInt16) :
    (countUtf8 terminated (t ++ rest)).isSome = (countUtf8 terminated rest).isSome := by
  cases h with
  | @plain u h0 hu =>
    have hzero : ¬(decide (u = 0) && terminated) = true := by
      rw [Bool.and_eq_true, decide_eq_true_iff]
      exact fun h => h0 h.2 h.1
    rw [List.singleton_append, countUtf8.eq_def]
    dsimp only
    rw [if_neg hzero, if_neg (mt isSurrogate_eq.1 hu)]
    split_ifs <;> exact Option.isSome_map
  | @pair hi lo hhi =>
    have hzero : ¬(decide (hi = 0) && terminated) = true := by
      rw [Bool.and_eq_true, decide_eq_true_iff]
      rintro ⟨rfl, -⟩
      exact absurd hhi.1 (by decide)
    rw [List.cons_append, List.singleton_append, countUtf8.eq_def]
    dsimp only
    rw [if_neg hzero, if_neg (by omega), if_neg (by omega), if_pos (isSurrogate_eq.2 hhi)]
    exact Option.isSome_map

theorem writeUtf8_character (h : Character terminated t) (rest : List UInt16) :
    (writeUtf8 terminated (t ++ rest)).isSome = (writeUtf8 terminated rest).isSome := by
  cases h with
  | @plain u h0 hu =>
    have hzero : ¬(decide (u = 0) && terminated) = true := by
      rw [Bool.and_eq_true, decide_eq_true_iff]
      exact fun h => h0 h.2 h.1
    rw [List.singleton_append, writeUtf8.eq_def]
    dsimp only
    rw [if_neg hzero, if_neg (mt isSurrogate_eq.1 hu)]
    split_ifs <;> exact Option.isSome_map
  | @pair hi lo hhi =>
    rw [List.cons_append, List.singleton_append, writeUtf8.eq_def]
    dsimp only
    rw [if_neg (by omega), if_neg (by omega), if_pos (isSurrogate_eq.2 hhi)]
    exact Option.isSome_map

theorem utf16_iff {P : List UInt16 → Prop}
    (hcharacter : ∀ t rest, Character terminated t → (P (t ++ rest) ↔ P rest))
    (hlone : ∀ u : UInt16, 0xD800 ≤ u.toNat ∧ u.toNat ≤ 0xDFFF → ¬P [u]) (hnil : P [])
    (hzero : terminated = true → ∀ rest, P (0 :: rest)) (units : List UInt16) :
    P units ↔ ¬Reaches (Starts (Character terminated)) Lone units := by
  refine iff_not_reaches (fun _ _ h => ?_) (fun _ ⟨hu⟩ => hlone _ hu) (fun text => ?_) units
  · obtain ⟨ht, -⟩ := h
    exact hcharacter _ _ ht
  match text with
  | [] => exact .inl hnil
  | u :: s =>
    have hstart : ∀ {t : List UInt16} (_ : Character terminated t) (_ : t ≠ []) (rest : List UInt16),
        ∃ r, Starts (Character terminated) (t ++ rest) r ∧ r.length < (t ++ rest).length :=
      fun ht hne rest => ⟨rest, .intro ht hne rest, (Starts.intro ht hne rest).length_lt⟩
    by_cases h0 : terminated = true ∧ u = 0
    · obtain ⟨hterminated, rfl⟩ := h0
      exact .inl (hzero hterminated s)
    by_cases hu : 0xD800 ≤ u.toNat ∧ u.toNat ≤ 0xDFFF
    · match s with
      | [] => exact .inr (.inl ⟨hu⟩)
      | lo :: s => exact .inr (.inr (hstart (t := [u, lo]) (.pair hu) nofun s))
    · exact .inr (.inr (hstart (t := [u]) (.plain (fun h hu0 => h0 ⟨h, hu0⟩) hu) nofun s))

/-- What is in memory after the last unit. -/
def terminator (terminated : Bool) : List UInt16 := if terminated then [0] else []

theorem countUtf8_lone {u : UInt16} (hu : 0xD800 ≤ u.toNat ∧ u.toNat ≤ 0xDFFF) :
    countUtf8 terminated (u :: terminator terminated) = none := by
  have hzero : ¬(decide (u = 0) && terminated) = true := by
    rw [Bool.and_eq_true, decide_eq_true_iff]
    rintro ⟨rfl, -⟩
    exact absurd hu.1 (by decide)
  rw [countUtf8.eq_def]
  dsimp only
  rw [if_neg hzero, if_neg (by omega), if_neg (by omega), if_pos (isSurrogate_eq.2 hu)]
  cases terminated <;> rfl

theorem countUtf8_isSome_iff (units : List UInt16) : (countUtf8 terminated (units ++ terminator terminated)).isSome ↔
    ¬Reaches (Starts (Character terminated)) Lone units := by
  refine utf16_iff (P := fun units => (countUtf8 terminated (units ++ terminator terminated)).isSome)
    (fun t rest ht => ?_) (fun u hu => ?_) ?_ (fun h rest => ?_) units
  · rw [List.append_assoc, countUtf8_character ht]
  · rw [List.singleton_append, countUtf8_lone hu]
    nofun
  · cases terminated <;> rfl
  · rw [h, List.cons_append, countUtf8.eq_def]
    rfl

theorem writeUtf8_isSome_iff (units : List UInt16) : (writeUtf8 terminated (units ++ terminator terminated)).isSome ↔
    ¬Reaches (Starts (Character terminated)) Lone units := by
  refine utf16_iff (P := fun units => (writeUtf8 terminated (units ++ terminator terminated)).isSome)
    (fun t rest ht => ?_) (fun u hu => ?_) ?_ (fun h rest => ?_) units
  · rw [List.append_assoc, writeUtf8_character ht]
  · rw [List.singleton_append, writeUtf8.eq_def]
    dsimp only
    rw [if_neg (by omega), if_neg (by omega), if_pos (isSurrogate_eq.2 hu)]
    cases terminated <;> (intro h; cases h)
  · cases terminated <;> rfl
  · rw [h, List.cons_append, writeUtf8.eq_def]
    rfl

theorem hlUtf16ToUtf8_isSome_iff (units : List UInt16) :
    (hlUtf16ToUtf8 terminated (units ++ terminator terminated)).isSome ↔
      ¬Reaches (Starts (Character terminated)) Lone units := by
  have hcount := @countUtf8_isSome_iff terminated units
  have hwrite := @writeUtf8_isSome_iff terminated units
  rw [hlUtf16ToUtf8, ← hcount]
  cases hc : countUtf8 terminated (units ++ terminator terminated) with
  | none => exact Iff.rfl
  | some n =>
    rw [hc] at hcount
    obtain ⟨out, hout⟩ := Option.isSome_iff_exists.1 (hwrite.2 (hcount.1 rfl))
    rw [hout]
    exact Iff.rfl

theorem utostrLoop_character (h : Character true t) (rest : List UInt16) :
    ∃ f n, (∀ room < n, utostrLoop room (t ++ rest) = some []) ∧
      ∀ room, utostrLoop (n + room) (t ++ rest) = (utostrLoop room rest).map f := by
  cases h with
  | @plain u h0 hu =>
    have hstep : ∀ room, utostrLoop room ([u] ++ rest) = _ := fun room => utostrLoop.eq_def room (u :: rest)
    dsimp only at hstep
    simp only [if_neg (h0 rfl), if_neg (mt isSurrogate_eq.1 hu)] at hstep
    by_cases h₁ : u.toNat < 0x80
    · refine ⟨(UInt8.ofNat u.toNat :: ·), 1, fun room hroom => ?_, fun room => ?_⟩
      · rw [hstep, if_pos (by omega)]
      · rw [hstep, if_neg (by omega), if_pos h₁, Nat.add_sub_cancel_left]
    by_cases h₂ : u.toNat < 0x800
    · refine ⟨(Utf.two u.toNat ++ ·), 2, fun room hroom => ?_, fun room => ?_⟩
      · rw [hstep, if_neg h₁, if_pos h₂, if_pos hroom, ite_self]
      · rw [hstep, if_neg (by omega), if_neg h₁, if_pos h₂, if_neg (by omega), Nat.add_sub_cancel_left]
    · refine ⟨(Utf.three u.toNat ++ ·), 3, fun room hroom => ?_, fun room => ?_⟩
      · rw [hstep, if_neg h₁, if_neg h₂, if_pos hroom, ite_self]
      · rw [hstep, if_neg (by omega), if_neg h₁, if_neg h₂, if_neg (by omega), Nat.add_sub_cancel_left]
  | @pair hi lo hhi =>
    have h0 : hi ≠ 0 := by
      rintro rfl
      exact absurd hhi.1 (by decide)
    have h₁ : ¬hi.toNat < 0x80 := by omega
    have h₂ : ¬hi.toNat < 0x800 := by omega
    have hstep : ∀ room, utostrLoop room ([hi, lo] ++ rest) = _ :=
      fun room => utostrLoop.eq_def room (hi :: lo :: rest)
    dsimp only at hstep
    refine ⟨(Utf.four (surrogatePair hi.toNat lo.toNat) ++ ·), 4, fun room hroom => ?_, fun room => ?_⟩
    · rw [hstep, if_neg h0, if_neg h₁, if_neg h₂, if_pos (isSurrogate_eq.2 hhi), if_pos hroom, ite_self]
    · rw [hstep, if_neg (by omega), if_neg h0, if_neg h₁, if_neg h₂, if_pos (isSurrogate_eq.2 hhi),
        if_neg (by omega), Nat.add_sub_cancel_left]

theorem utostrLoop_isSome_iff (units : List UInt16) : (∀ room, (utostrLoop room (units ++ [0])).isSome) ↔
    ¬Reaches (Starts (Character true)) Lone units := by
  refine utf16_iff (P := fun units => ∀ room, (utostrLoop room (units ++ [0])).isSome)
    (fun t rest ht => ?_) (fun u hu hall => ?_) (fun room => ?_) (fun _ rest room => ?_) units
  · obtain ⟨f, n, hshort, hroom⟩ := utostrLoop_character ht (rest ++ [0])
    rw [List.append_assoc]
    refine ⟨fun h room => ?_, fun h room => ?_⟩
    · rw [← Option.isSome_map (f := f), ← hroom]
      exact h (n + room)
    · obtain hlt | hle := Nat.lt_or_ge room n
      · rw [hshort room hlt]
        rfl
      · rw [← Nat.add_sub_cancel' hle, hroom, Option.isSome_map]
        exact h (room - n)
  · -- with room for one byte after it the terminator is taken as the second unit
    have h5 := hall 5
    have h0 : u ≠ 0 := by
      rintro rfl
      exact absurd hu.1 (by decide)
    rw [List.singleton_append, utostrLoop.eq_def] at h5
    dsimp only at h5
    rw [if_neg (by decide), if_neg h0, if_neg (by omega), if_neg (by omega), if_pos (isSurrogate_eq.2 hu), if_neg (by decide)]
      at h5
    cases h5
  · rw [List.nil_append, utostrLoop.eq_def]
    dsimp only
    rw [if_pos (show (0 : UInt16) = 0 from rfl), ite_self]
    rfl
  · rw [List.cons_append, utostrLoop.eq_def]
    dsimp only
    rw [if_pos (show (0 : UInt16) = 0 from rfl), ite_self]
    rfl

theorem utostr_isSome_iff (str : List UInt16) :
    (∀ outSize, (utostr outSize str).isSome) ↔ ∀ room, (utostrLoop room str).isSome := by
  refine ⟨fun h room => ?_, fun h outSize => ?_⟩
  · have hsize := h (room + 1)
    rwa [utostr, if_neg (Nat.succ_ne_zero room), Nat.add_sub_cancel, Option.isSome_map] at hsize
  · rw [utostr]
    split
    · rfl
    · rw [Option.isSome_map]
      exact h _

theorem safeUtf16_iff (units : List UInt16) : SafeUtf16 units ↔ ¬Reaches (Starts (Character true)) Lone units := by
  have hutf8 := @hlUtf16ToUtf8_isSome_iff true units
  have hcount := @countUtf8_isSome_iff true units
  rw [terminator, if_pos rfl] at hutf8 hcount
  rw [SafeUtf16, ustrlenUtf8_eq, utostr_isSome_iff, hutf8, hcount, utostrLoop_isSome_iff, and_self, and_self]

/-- A conversion reads nothing after its text exactly when the text is whole. -/
theorem safe_iff (i : Input) : i.Safe ↔ i.Whole := by
  cases i with
  | utf8 text => exact safeUtf8_iff text.chars
  | utf16 text => exact safeUtf16_iff text.chars
  | delimited units =>
    cases units with
    | nil => exact iff_of_false Bool.false_ne_true fun h => h.1 rfl
    | cons u s =>
      have hutf8 := @hlUtf16ToUtf8_isSome_iff false (u :: s)
      rw [terminator, if_neg Bool.false_ne_true, List.append_nil] at hutf8
      exact hutf8.trans (and_iff_right (List.cons_ne_nil u s)).symm

/-- The first byte of a sequence of three is all of the text. -/
theorem lead_not_safe : ¬(Input.utf8 ⟨[0xE0], by simp⟩).Safe := fun h => by
  obtain ⟨n, units, ret, hlength, -⟩ := h
  cases hlength

end HashLink.Text
