import Mathlib.Tactic.Common
import Mathlib.Algebra.Group.Int.Units

/-! Postconditions of programs that may stop with an error. Some errors are allowed, such as a
failed allocation; a program meets its postcondition when it stops with one of these or returns a
value that has it. -/

namespace Outcome

variable {ε α β : Type}

/-- A result is an allowed error or a value with the property. -/
def Meets (allowed : ε → Prop) (P : α → Prop) : Except ε α → Prop
  | .ok a => P a
  | .error e => allowed e

variable {allowed : ε → Prop} {P : α → Prop} {Q : β → Prop}

theorem meets_pure {a : α} (h : P a) : Meets allowed P (pure a : Except ε α) := h

theorem meets_bind {x : Except ε α} {f : α → Except ε β} (hx : Meets allowed P x)
    (hf : ∀ a, P a → Meets allowed Q (f a)) : Meets allowed Q (x >>= f) := by
  cases x with
  | ok a => exact hf a hx
  | error e => exact hx

theorem Meets.imp {P' : α → Prop} {x : Except ε α} (hx : Meets allowed P x)
    (h : ∀ a, P a → P' a) : Meets allowed P' x := by
  cases x with
  | ok a => exact h a hx
  | error e => exact hx

end Outcome
