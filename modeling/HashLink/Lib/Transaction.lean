import Mathlib.Tactic.Common

/-!
Invariants of programs that stage their work in a state and may stop at any step. `EStateM` keeps
the state at the point of failure, which is what the cleanup path of such a program starts from, so
an invariant has to hold of the state a program leaves whether it succeeds or not.
-/

namespace Transaction

variable {ε σ α β : Type}

/-- The state a run ends in, whatever its outcome. -/
def finalState (x : EStateM ε σ α) (s : σ) : σ :=
  match x s with
  | .ok _ s' => s'
  | .error _ s' => s'

/-- A program keeps an invariant when every state it can stop in has it. -/
def Keeps (P : σ → Prop) (x : EStateM ε σ α) : Prop := ∀ s, P s → P (finalState x s)

/-- Runs a check that does not look at the state. -/
def check (e : Except ε α) : EStateM ε σ α :=
  match e with
  | .ok a => pure a
  | .error err => throw err

/-- Runs a program for each entry with its position. -/
def eachIdx (body : Nat → α → EStateM ε σ Unit) : Nat → List α → EStateM ε σ Unit
  | _, [] => pure ()
  | i, a :: rest => do
      body i a
      eachIdx body (i + 1) rest

/-- Folds a list with the position of each entry. -/
def foldIdx (f : β → Nat → α → β) : Nat → List α → β → β
  | _, [], b => b
  | i, a :: rest, b => foldIdx f (i + 1) rest (f b i a)

variable {x : EStateM ε σ α} {l : List α}

theorem foldIdx_induct {f : β → Nat → α → β} {Q : Nat → β → Prop} {n : Nat} {b : β}
    (h : ∀ i a b, l[i]? = some a → Q (n + i) b → Q (n + i + 1) (f b (n + i) a)) (hb : Q n b) :
    Q (n + l.length) (foldIdx f n l b) := by
  induction l generalizing n b with
  | nil => exact hb
  | cons a rest ih =>
    have hnext := ih (n := n + 1) (b := f b n a) (fun i c b' hc hQ => by
      have hstep := h (i + 1) c b' (by simpa using hc)
      rw [show n + 1 + i = n + (i + 1) by omega] at hQ ⊢
      exact hstep hQ) (h 0 a b rfl hb)
    rwa [show n + (a :: rest).length = n + 1 + rest.length by
      simp only [List.length_cons]; omega]

theorem foldIdx_keeps {f : β → Nat → α → β} {Q : β → Prop} {n : Nat} {b : β}
    (h : ∀ i a b, l[i]? = some a → Q b → Q (f b (n + i) a)) (hb : Q b) :
    Q (foldIdx f n l b) :=
  foldIdx_induct (Q := fun _ => Q) h hb

theorem foldl_keeps {γ : Type} {g : β → γ} {f : β → α → β} (hf : ∀ b a, g (f b a) = g b)
    (l : List α) (b : β) : g (l.foldl f b) = g b := by
  induction l generalizing b with
  | nil => rfl
  | cons a rest ih => exact (ih (f b a)).trans (hf b a)

variable {P : σ → Prop}

theorem keeps_pure (a : α) : Keeps P (pure a : EStateM ε σ α) := fun _ hs => hs

theorem keeps_throw (e : ε) : Keeps P (throw e : EStateM ε σ α) := fun _ hs => hs

theorem keeps_modify {f : σ → σ} (h : ∀ s, P s → P (f s)) :
    Keeps P (modify f : EStateM ε σ Unit) := h

theorem keeps_bind {f : α → EStateM ε σ β} (hx : Keeps P x) (hf : ∀ a, Keeps P (f a)) : Keeps P (x >>= f) := by
  intro s hs
  have hfirst := hx s hs
  unfold finalState at hfirst ⊢
  simp only [bind, EStateM.bind]
  cases hrun : x s with
  | ok a s' =>
    rw [hrun] at hfirst
    exact hf a s' hfirst
  | error e s' =>
    rw [hrun] at hfirst
    exact hfirst

theorem keeps_check (e : Except ε α) : Keeps P (check e : EStateM ε σ α) := by
  cases e with
  | ok a => exact keeps_pure a
  | error err => exact keeps_throw err

theorem keeps_get : Keeps P (get : EStateM ε σ σ) := fun _ hs => hs

theorem keeps_get_bind {f : σ → EStateM ε σ β} (h : ∀ s, P s → P (finalState (f s) s)) :
    Keeps P (get >>= f) := h

theorem keeps_ite {c : Prop} [Decidable c] {y : EStateM ε σ α} (hx : c → Keeps P x) (hy : ¬c → Keeps P y) :
    Keeps P (if c then x else y) := by
  split
  · exact hx ‹_›
  · exact hy ‹_›

theorem keeps_eachIdx {body : Nat → α → EStateM ε σ Unit} {start : Nat}
    (h : ∀ i a, l[i]? = some a → Keeps P (body (start + i) a)) :
    Keeps P (eachIdx body start l) := by
  induction l generalizing start with
  | nil => exact keeps_pure ()
  | cons a rest ih =>
    refine keeps_bind (h 0 a rfl) fun _ => ih fun i b hb => ?_
    have := h (i + 1) b (by simpa using hb)
    rwa [show start + 1 + i = start + (i + 1) by omega]

/-- From a state with `P` the program returns with `Q` or stops with `E`. -/
def Spec (P : σ → Prop) (x : EStateM ε σ α) (Q : α → σ → Prop) (E : ε → σ → Prop) : Prop :=
  ∀ s, P s → match x s with
    | .ok a s' => Q a s'
    | .error e s' => E e s'

variable {Q : α → σ → Prop} {R : β → σ → Prop} {E : ε → σ → Prop}

theorem spec_pure {a : α} (h : ∀ s, P s → Q a s) : Spec P (pure a) Q E := h

theorem spec_throw {e : ε} (h : ∀ s, P s → E e s) : Spec P (throw e) Q E := h

theorem spec_bind {f : α → EStateM ε σ β} (hx : Spec P x Q E) (hf : ∀ a, Spec (Q a) (f a) R E) :
    Spec P (x >>= f) R E := by
  intro s hs
  have hfirst := hx s hs
  simp only [bind, EStateM.bind]
  cases hrun : x s with
  | ok a s' =>
    rw [hrun] at hfirst
    exact hf a s' hfirst
  | error e s' =>
    rw [hrun] at hfirst
    exact hfirst

theorem spec_get_bind {f : σ → EStateM ε σ β} (h : ∀ s, P s → Spec (fun t => t = s) (f s) R E) :
    Spec P (get >>= f) R E := fun s hs => h s hs s rfl

theorem spec_modify {f : σ → σ} {T : Unit → σ → Prop} (h : ∀ s, P s → T () (f s)) :
    Spec P (modify f : EStateM ε σ Unit) T E := h

theorem spec_set {s' : σ} {T : PUnit → σ → Prop} (h : T ⟨⟩ s') :
    Spec P (set s' : EStateM ε σ PUnit) T E := fun _ _ => h

theorem spec_ite {c : Prop} [Decidable c] {y : EStateM ε σ α} (hx : c → Spec P x Q E) (hy : ¬c → Spec P y Q E) :
    Spec P (if c then x else y) Q E := by
  split
  · exact hx ‹_›
  · exact hy ‹_›

theorem Spec.pre {P' : σ → Prop} (hx : Spec P x Q E) (h : ∀ s, P' s → P s) :
    Spec P' x Q E := fun s hs => hx s (h s hs)

theorem spec_check {e : Except ε α} {T : α → σ → Prop} (hok : ∀ a, e = .ok a → ∀ s, P s → T a s)
    (herror : ∀ err s, P s → E err s) : Spec P (check e : EStateM ε σ α) T E := by
  cases e with
  | ok a => exact spec_pure (hok a rfl)
  | error err => exact spec_throw (herror err)

theorem spec_eachIdx {body : Nat → α → EStateM ε σ Unit} {I : Nat → σ → Prop} {n : Nat}
    (h : ∀ i a, l[i]? = some a → Spec (I (n + i)) (body (n + i) a) (fun _ => I (n + i + 1)) E) :
    Spec (I n) (eachIdx body n l) (fun _ => I (n + l.length)) E := by
  induction l generalizing n with
  | nil => exact spec_pure fun _ hs => hs
  | cons a rest ih =>
    refine spec_bind (h 0 a rfl) fun _ => ?_
    rw [show n + (a :: rest).length = n + 1 + rest.length by
      simp only [List.length_cons]; omega]
    refine ih fun i b hb => ?_
    have hstep := h (i + 1) b (by simpa using hb)
    rwa [show n + 1 + i = n + (i + 1) by omega]

theorem spec_given {c : Prop} (h : c → Spec P x Q E) :
    Spec (fun s => c ∧ P s) x Q E := fun s hs => h hs.1 s hs.2

theorem Spec.returns {Q' : α → σ → Prop} (hx : Spec P x Q E) (h : ∀ s a s', P s → x s = .ok a s' → Q' a s') :
    Spec P x (fun a s => Q a s ∧ Q' a s) E := by
  intro s hs
  have hrun := hx s hs
  cases hstep : x s with
  | ok a s' =>
    rw [hstep] at hrun
    exact ⟨hrun, h s a s' hs hstep⟩
  | error e s' =>
    rw [hstep] at hrun
    exact hrun

end Transaction
