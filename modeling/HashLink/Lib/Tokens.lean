import Mathlib.Data.List.Basic

/-! Texts that are read one token after the other, and what is found after some number of tokens. -/

namespace Tokens

variable {α : Type*}

/-- After some number of tokens the rest of the text is a stop. A step goes from a text to what is after its token. -/
inductive Reaches (Step : List α → List α → Prop) (Stop : List α → Prop) : List α → Prop where
  | here {text : List α} (h : Stop text) : Reaches Step Stop text
  | step {text rest : List α} (h : Step text rest) (hrest : Reaches Step Stop rest) : Reaches Step Stop text

/-- The steps over tokens that do not depend on what is after them. -/
inductive Starts (Token : List α → Prop) : List α → List α → Prop where
  | intro {t : List α} (ht : Token t) (hne : t ≠ []) (rest : List α) : Starts Token (t ++ rest) rest

variable {Step : List α → List α → Prop} {Stop P : List α → Prop}

theorem Reaches.induct (hstop : ∀ text, Stop text → P text)
    (hstep : ∀ text rest, Step text rest → P rest → P text) {text : List α} (h : Reaches Step Stop text) : P text := by
  induction h with
  | here h => exact hstop _ h
  | step h _ ih => exact hstep _ _ h ih

theorem of_not_reaches (hstep : ∀ text rest, Step text rest → P rest → P text)
    (hview : ∀ text, P text ∨ Stop text ∨ ∃ rest, Step text rest ∧ rest.length < text.length)
    {text : List α} (h : ¬Reaches Step Stop text) : P text := by
  induction hlen : text.length using Nat.strongRecOn generalizing text with
  | ind n ih =>
    obtain hp | hstop | ⟨rest, htext, hlt⟩ := hview text
    · exact hp
    · exact absurd (.here hstop) h
    · exact hstep text rest htext (ih rest.length (hlen ▸ hlt) (fun hrest => h (.step htext hrest)) rfl)

theorem iff_not_reaches (hstep : ∀ text rest, Step text rest → (P text ↔ P rest)) (hstop : ∀ text, Stop text → ¬P text)
    (hview : ∀ text, P text ∨ Stop text ∨ ∃ rest, Step text rest ∧ rest.length < text.length) (text : List α) :
    P text ↔ ¬Reaches Step Stop text where
  mp hp hreaches := hreaches.induct hstop (fun text rest h => mt (hstep text rest h).1) hp
  mpr h := of_not_reaches (fun text rest h => (hstep text rest h).2) hview h

theorem Starts.length_lt {Token : List α → Prop} {text rest : List α} (h : Starts Token text rest) :
    rest.length < text.length := by
  obtain ⟨_, hne, _⟩ := h
  rw [List.length_append]
  exact Nat.lt_add_of_pos_left (List.length_pos_iff.2 hne)

variable {β γ : Type*}

/-- A text starts with a number of items, each with a value. -/
inductive Run (Item : List α → β → List α → Prop) : List α → List β → List α → Prop where
  | nil (text : List α) : Run Item text [] text
  | cons {text mid rest : List α} {b : β} {bs : List β} (h : Item text b mid) (hrest : Run Item mid bs rest) :
      Run Item text (b :: bs) rest

variable {Item : List α → β → List α → Prop} {Item' : List α → γ → List α → Prop}

theorem Run.view (Item : List α → β → List α → Prop) (k : Nat) (text : List α) :
    (∃ bs rest, Run Item text bs rest ∧ bs.length = k) ∨
      ∃ bs rest, Run Item text bs rest ∧ bs.length < k ∧ ∀ b r, ¬Item rest b r := by
  induction k generalizing text with
  | zero => exact .inl ⟨[], text, .nil text, rfl⟩
  | succ k ih =>
    by_cases hitem : ∃ b mid, Item text b mid
    · obtain ⟨b, mid, h⟩ := hitem
      obtain ⟨bs, rest, hrun, hlen⟩ | ⟨bs, rest, hrun, hlen, hno⟩ := ih mid
      · exact .inl ⟨b :: bs, rest, .cons h hrun, congrArg Nat.succ hlen⟩
      · exact .inr ⟨b :: bs, rest, .cons h hrun, Nat.succ_lt_succ hlen, hno⟩
    · exact .inr ⟨[], text, .nil text, Nat.succ_pos k, fun b r h => hitem ⟨b, r, h⟩⟩

theorem Run.map {f : β → γ} (hf : ∀ text b rest, Item text b rest → Item' text (f b) rest) {text rest : List α}
    {bs : List β} (h : Run Item text bs rest) : Run Item' text (bs.map f) rest := by
  induction h with
  | nil text => exact .nil text
  | cons h _ ih => exact .cons (hf _ _ _ h) ih

theorem Run.suffix (hitem : ∀ text b rest, Item text b rest → rest <:+ text) {text rest : List α} {bs : List β}
    (h : Run Item text bs rest) : rest <:+ text := by
  induction h with
  | nil text => exact List.suffix_refl text
  | cons h _ ih => exact ih.trans (hitem _ _ _ h)

end Tokens
