import HashLink.Lib.Outcome

/-! Programs over 32-bit integers, which remember whether some value they computed did not fit and wrapped
around. They may also stop with an error. -/

/-- What a program did: its value or error, and whether a computation on the way wrapped around. -/
structure WrappedInt (ε α : Type) where
  outcome : Except ε α
  wrapped : Bool

namespace WrappedInt

variable {ε α β : Type}

instance : Monad (WrappedInt ε) where
  pure a := ⟨.ok a, false⟩
  bind x f :=
    match x.outcome with
    | .ok a => ⟨(f a).outcome, x.wrapped || (f a).wrapped⟩
    | .error e => ⟨.error e, x.wrapped⟩

def stop (e : ε) : WrappedInt ε α := ⟨.error e, false⟩

def int32 (x : Int) : WrappedInt ε Int := ⟨.ok (x.bmod (2 ^ 32)), x.bmod (2 ^ 32) != x⟩

/-- No computation wrapped around, and the program stopped with an allowed error or has a value with the
property. -/
def Exact (allowed : ε → Prop) (P : α → Prop) (x : WrappedInt ε α) : Prop :=
  x.wrapped = false ∧ Outcome.Meets allowed P x.outcome

variable {allowed : ε → Prop} {P : α → Prop} {Q : β → Prop} {x : WrappedInt ε α} {f : α → WrappedInt ε β}

theorem bind_of_ok {a : α} {w : Bool} (h : x = ⟨.ok a, w⟩) :
    x >>= f = ⟨(f a).outcome, w || (f a).wrapped⟩ := by
  subst h
  rfl

theorem id_bind : ∀ x : WrappedInt ε α, id <$> x = x := by
  rintro ⟨_ | _, w⟩
  · rfl
  · exact congrArg _ (Bool.or_false w)

theorem bind_bind {γ : Type} {g : β → WrappedInt ε γ} : x >>= f >>= g = x >>= fun a => f a >>= g := by
  obtain ⟨_ | a, w⟩ := x
  · rfl
  · rcases hf : f a with ⟨_ | b, w'⟩
    · simp only [bind, hf]
    · simp only [bind, hf, Bool.or_assoc]

instance : LawfulMonad (WrappedInt ε) :=
  LawfulMonad.mk' _ id_bind (fun _ _ => rfl) (fun _ _ _ => bind_bind)

theorem exact_pure {a : α} (h : P a) : Exact allowed P (pure a : WrappedInt ε α) := ⟨rfl, h⟩

theorem exact_stop {e : ε} (h : allowed e) : Exact allowed P (stop e : WrappedInt ε α) := ⟨rfl, h⟩

theorem exact_bind (hx : Exact allowed P x) (hf : ∀ a, P a → Exact allowed Q (f a)) :
    Exact allowed Q (x >>= f) := by
  obtain ⟨outcome, wrapped⟩ := x
  obtain ⟨hwrapped, hmeets⟩ := hx
  cases outcome with
  | ok a =>
    rw [bind_of_ok rfl]
    obtain ⟨hwrapped', hmeets'⟩ := hf a hmeets
    exact ⟨by simp only [show wrapped = false from hwrapped, hwrapped', Bool.or_false], hmeets'⟩
  | error e => exact ⟨hwrapped, hmeets⟩

theorem Exact.imp {P' : α → Prop} (hx : Exact allowed P x) (h : ∀ a, P a → P' a) : Exact allowed P' x :=
  ⟨hx.1, hx.2.imp h⟩

theorem int32_of_fits {n : Int} (h : -2 ^ 31 ≤ n) (h' : n < 2 ^ 31) :
    (int32 n : WrappedInt ε Int) = pure n := by
  have hexact : n.bmod (2 ^ 32) = n := Int.bmod_eq_of_le (by omega) (by omega)
  simp only [int32, hexact, bne_self_eq_false]
  rfl

theorem wrapped_int32 {n : Int} (h : 2 ^ 31 ≤ n) : (int32 n : WrappedInt ε Int).wrapped = true := by
  have hlt : n.bmod (2 ^ 32) < 2 ^ 31 := by
    have := Int.bmod_lt (x := n) (m := 2 ^ 32) (by decide)
    omega
  exact bne_iff_ne.mpr (by omega)

theorem wrapped_bind (h : x.wrapped = true) : (x >>= f).wrapped = true := by
  obtain ⟨outcome, wrapped⟩ := x
  cases outcome with
  | ok a =>
    rw [bind_of_ok rfl]
    simp only [show wrapped = true from h, Bool.true_or]
  | error e => exact h

theorem wrapped_bind_next {a : α} (hx : x.outcome = .ok a) (h : (f a).wrapped = true) :
    (x >>= f).wrapped = true := by
  obtain ⟨outcome, wrapped⟩ := x
  cases hx
  rw [bind_of_ok rfl]
  simp only [h, Bool.or_true]

end WrappedInt
