import Mathlib.Data.Int.Log
import Mathlib.Tactic.Ring
import Mathlib.Tactic.Linarith

/-! Division by a constant as a product with its reciprocal: a dividend of `w` bits and a sign is
multiplied with a number a little above `2 ^ (w + l) / d`, and the bits below are dropped. -/

namespace Reciprocal

/-- The reciprocal of `d`, with `k` bits after the point. -/
def magic (d k : Nat) : Nat := 2 ^ k / d + 1

variable {d k : Nat}

end Reciprocal
