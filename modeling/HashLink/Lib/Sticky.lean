import HashLink.Lib.Transaction

/-!
Programs that do not stop at an error but note it in their state and go on, to be asked about it
later. What such a program returns means something only when the note is still absent at the end,
and then it was absent at every step before.
-/

namespace Sticky

open Transaction

variable {ε σ α β : Type}

/-- Whenever the program ends in a clean state it started in one, and its value is a good one. -/
def Yields (clean : σ → Prop) (x : EStateM ε σ α) (good : α → Prop) : Prop :=
  ∀ s a s', x s = .ok a s' → clean s' → clean s ∧ good a

/-- The program ends in a clean state when it starts in one. -/
def Settles (clean : σ → Prop) (x : EStateM ε σ α) : Prop :=
  ∀ s a s', x s = .ok a s' → clean s → clean s'

/-- The program ends only in clean states. -/
def Ends (clean : σ → Prop) (x : EStateM ε σ α) : Prop :=
  ∀ s a s', x s = .ok a s' → clean s'

def collect (x : EStateM ε σ α) : Nat → EStateM ε σ (List α)
  | 0 => pure []
  | n + 1 => do
      let a ← x
      let rest ← collect x n
      return a :: rest

variable {clean : σ → Prop} {good : α → Prop} {good' : β → Prop} {P : σ → Prop}
variable {x : EStateM ε σ α} {f : α → EStateM ε σ β}

theorem bind_eq_ok {s s' : σ} {b : β} :
    (x >>= f) s = .ok b s' ↔ ∃ a t, x s = .ok a t ∧ f a t = .ok b s' := by
  simp only [bind, EStateM.bind]
  cases x s <;> simp

theorem pure_eq_ok {a b : α} {s s' : σ} :
    (pure a : EStateM ε σ α) s = .ok b s' ↔ a = b ∧ s = s' := by
  simp [pure, EStateM.pure]

theorem yields_pure {a : α} (h : good a) : Yields clean (pure a : EStateM ε σ α) good := by
  intro s b s' hrun hclean
  obtain ⟨rfl, rfl⟩ := (pure_eq_ok).mp hrun
  exact ⟨hclean, h⟩

theorem yields_throw (e : ε) : Yields clean (throw e : EStateM ε σ α) good := by
  intro s a s' hrun
  cases hrun

/-- The first value is known to be good only once the rest has ended clean, so the rest is judged
under that assumption. -/
theorem yields_bind (hx : Yields clean x good) (hf : ∀ a, Yields clean (f a) fun b => good a → good' b) :
    Yields clean (x >>= f) good' := by
  intro s b s' hrun hclean
  obtain ⟨a, t, hfirst, hrest⟩ := (bind_eq_ok).mp hrun
  obtain ⟨hmid, hgood⟩ := hf a t b s' hrest hclean
  obtain ⟨hstart, ha⟩ := hx s a t hfirst hmid
  exact ⟨hstart, hgood ha⟩

theorem yields_mono {better : α → Prop} (hx : Yields clean x good) (h : ∀ a, good a → better a) :
    Yields clean x better := by
  intro s a s' hrun hclean
  obtain ⟨hstart, ha⟩ := hx s a s' hrun hclean
  exact ⟨hstart, h a ha⟩

theorem yields_with (hx : Yields clean x fun _ => True) (h : Yields (fun _ => True) x good) :
    Yields clean x good := by
  intro s a s' hrun hclean
  exact ⟨(hx s a s' hrun hclean).1, (h s a s' hrun trivial).2⟩

theorem yields_ite {c : Prop} [Decidable c] {y : EStateM ε σ α} (hx : c → Yields clean x good)
    (hy : ¬c → Yields clean y good) : Yields clean (if c then x else y) good := by
  by_cases hc : c
  · rw [if_pos hc]
    exact hx hc
  · rw [if_neg hc]
    exact hy hc

theorem yields_get_bind {f : σ → EStateM ε σ β}
    (h : ∀ s b s', f s s = .ok b s' → clean s' → clean s ∧ good' b) :
    Yields clean (get >>= f) good' := h

theorem yields_collect (hx : Yields clean x good) (n : Nat) :
    Yields clean (collect x n) fun l => l.length = n ∧ ∀ a ∈ l, good a := by
  induction n with
  | zero => exact yields_pure ⟨rfl, by simp⟩
  | succ n ih =>
    refine yields_bind hx fun a => yields_bind ih fun rest => yields_pure ?_
    rintro ⟨hlength, hrest⟩ ha
    exact ⟨by simp [hlength], List.forall_mem_cons.mpr ⟨ha, hrest⟩⟩

/-! ### Values that are good whatever happens -/

theorem yields_any : Yields (fun _ => True) x fun _ => True :=
  fun _ _ _ _ _ => ⟨trivial, trivial⟩

theorem yields_then (hx : Yields (fun _ => True) x good)
    (hf : ∀ a, good a → Yields (fun _ => True) (f a) good') :
    Yields (fun _ => True) (x >>= f) good' := by
  intro s b s' hrun _
  obtain ⟨a, t, hfirst, hrest⟩ := (bind_eq_ok).mp hrun
  exact hf a (hx s a t hfirst trivial).2 t b s' hrest trivial

theorem yields_skip (hf : ∀ a, Yields (fun _ => True) (f a) good') : Yields (fun _ => True) (x >>= f) good' :=
  yields_then yields_any fun a _ => hf a

theorem settles_pure (a : α) : Settles clean (pure a : EStateM ε σ α) := by
  intro s b s' hrun hclean
  obtain ⟨-, rfl⟩ := (pure_eq_ok).mp hrun
  exact hclean

theorem settles_bind (hx : Settles clean x) (hf : ∀ a, Settles clean (f a)) : Settles clean (x >>= f) := by
  intro s b s' hrun hclean
  obtain ⟨a, t, hfirst, hrest⟩ := (bind_eq_ok).mp hrun
  exact hf a t b s' hrest (hx s a t hfirst hclean)

theorem ends_bind (hf : ∀ a, Ends clean (f a)) :
    Ends clean (x >>= f) := by
  intro s b s' hrun
  obtain ⟨a, t, -, hrest⟩ := (bind_eq_ok).mp hrun
  exact hf a t b s' hrest

theorem ends_ite {c : Prop} [Decidable c] {y : EStateM ε σ α} (hx : Ends clean x) (hy : Ends clean y) :
    Ends clean (if c then x else y) := by
  split
  · exact hx
  · exact hy

theorem settles_ite {c : Prop} [Decidable c] {y : EStateM ε σ α} (hx : Settles clean x) (hy : Settles clean y) :
    Settles clean (if c then x else y) := by
  split
  · exact hx
  · exact hy

theorem Ends.settles (h : Ends clean x) : Settles clean x :=
  fun s a s' hrun _ => h s a s' hrun

theorem Ends.bind (hx : Ends clean x) (hf : ∀ a, Settles clean (f a)) : Ends clean (x >>= f) := by
  intro s b s' hrun
  obtain ⟨a, t, hfirst, hrest⟩ := (bind_eq_ok).mp hrun
  exact hf a t b s' hrest (hx s a t hfirst)

theorem settles_collect (hx : Settles clean x) (n : Nat) :
    Settles clean (collect x n) := by
  induction n with
  | zero => exact settles_pure _
  | succ n ih => exact settles_bind hx fun _ => settles_bind ih fun _ => settles_pure _

theorem keeps_yields_bind (hx : Keeps P x) (hgood : Yields (fun _ => True) x good)
    (hf : ∀ a, good a → Keeps P (f a)) :
    Keeps P (x >>= f) := by
  intro s hs
  have hfirst := hx s hs
  unfold finalState at hfirst ⊢
  simp only [bind, EStateM.bind]
  cases hrun : x s with
  | ok a s' =>
    rw [hrun] at hfirst
    exact hf a (hgood s a s' hrun trivial).2 s' hfirst
  | error e s' =>
    rw [hrun] at hfirst
    exact hfirst

theorem keeps_collect (hx : Keeps P x) (n : Nat) : Keeps P (collect x n) := by
  induction n with
  | zero => exact keeps_pure _
  | succ n ih => exact keeps_bind hx fun _ => keeps_bind ih fun _ => keeps_pure _

/-- Whenever the first program returns, the second does so in the same state, with a value that
fits. -/
def Follows (x : EStateM ε σ α) (y : EStateM ε σ β) (fits : α → β → Prop) : Prop :=
  ∀ s a s', x s = .ok a s' → ∃ b, y s = .ok b s' ∧ fits a b

theorem follows_pure {fits : α → β → Prop} {a : α} {b : β} (h : fits a b) :
    Follows (pure a : EStateM ε σ α) (pure b) fits := by
  intro s a' s' hrun
  obtain ⟨rfl, rfl⟩ := (pure_eq_ok).mp hrun
  exact ⟨b, rfl, h⟩

theorem follows_bind {γ δ : Type} {y : EStateM ε σ β} {f : α → EStateM ε σ γ} {g : β → EStateM ε σ δ}
    {fits : α → β → Prop} {fits' : γ → δ → Prop} (hx : Follows x y fits)
    (hf : ∀ a b, fits a b → Follows (f a) (g b) fits') : Follows (x >>= f) (y >>= g) fits' := by
  intro s c s' hrun
  obtain ⟨a, t, hfirst, hrest⟩ := (bind_eq_ok).mp hrun
  obtain ⟨b, hsecond, hfits⟩ := hx s a t hfirst
  obtain ⟨d, hlast, hfits'⟩ := hf a b hfits t c s' hrest
  exact ⟨d, (bind_eq_ok).mpr ⟨b, t, hsecond, hlast⟩, hfits'⟩

theorem follows_same {γ δ : Type} {f : α → EStateM ε σ γ} {g : α → EStateM ε σ δ} {fits : γ → δ → Prop}
    (hf : ∀ a, Follows (f a) (g a) fits) :
    Follows (x >>= f) (x >>= g) fits := by
  intro s c s' hrun
  obtain ⟨a, t, hfirst, hrest⟩ := (bind_eq_ok).mp hrun
  obtain ⟨d, hlast, hfits⟩ := hf a t c s' hrest
  exact ⟨d, (bind_eq_ok).mpr ⟨a, t, hfirst, hlast⟩, hfits⟩

end Sticky
