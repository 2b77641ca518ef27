import HashLink.Jit.X86
import HashLink.Lib.Reciprocal

/-!
Division and remainder on x86. A signed division by a constant from 2 on is a product with the
reciprocal and a shift; any other division uses the instruction, with a branch around it for the divisors
0 and -1. Both save `RAX` and `RDX`, unless one of them is the result.
-/

namespace HashLink.X86

/-- The operations of `emit_div_mod`. -/
inductive DivOp where
  | oSDiv
  | oSMod
  | oUDiv
  | oUMod
  deriving DecidableEq, Repr

/-- The loop for `L`. A divisor has 31 bits, so that it ends within 32 turns. -/
def ceilLog (d : Nat) : Nat → Nat → Nat
  | 0, l => l
  | fuel + 1, l => if 2 ^ l < d then ceilLog d fuel (l + 1) else l

def DivOp.signed : DivOp → Bool
  | .oSDiv | .oSMod => true
  | .oUDiv | .oUMod => false

def DivOp.result : DivOp → Reg
  | .oSDiv | .oUDiv => rax
  | .oSMod | .oUMod => rdx

namespace Machine

variable {m : Machine} {mode : Mode} {r r' : Reg}

end Machine

open Machine

/-- What a division leaves: the result, and all else but the scratch register. -/
structure Leaves (m m' : Machine) (mode : Mode) (out : Operand) (v : BitVec mode.bits) : Prop where
  value : m'.read mode out = v
  pushed : m'.pushed = m.pushed
  regs : ∀ r, .reg r ≠ out → r ≠ r11 → m'.regs r = m.regs r
  slots : ∀ i, .slot i ≠ out → m'.slots i = m.slots i

variable {m m' : Machine} {mode : Mode} {r : Reg}

theorem ceilLog_spec {d l : Nat} (fuel : Nat) (hl : 2 ^ l < 2 * d) (hfuel : d ≤ 2 ^ (l + fuel)) :
    d ≤ 2 ^ ceilLog d fuel l ∧ 2 ^ ceilLog d fuel l < 2 * d := by
  induction fuel generalizing l with
  | zero => exact ⟨hfuel, hl⟩
  | succ fuel ih =>
    unfold ceilLog
    split
    · next hlt =>
      refine ih ?_ (by rwa [Nat.add_right_comm, Nat.add_assoc])
      rw [Nat.pow_succ]
      omega
    · next hge => exact ⟨Nat.le_of_not_lt hge, hl⟩

/-- A divisor that `emit_div_const` takes. -/
structure Divisor (d : Nat) : Prop where
  two : 2 ≤ d
  small : d < 2 ^ 31

theorem Divisor.log {d : Nat} (h : Divisor d) :
    d ≤ 2 ^ ceilLog d 32 0 ∧ 2 ^ ceilLog d 32 0 < 2 * d ∧ ceilLog d 32 0 ≤ 31 := by
  have htwo := h.two
  have hsmall := h.small
  obtain ⟨hle, hlt⟩ := ceilLog_spec (d := d) (l := 0) 32 (by omega) (by omega)
  refine ⟨hle, hlt, ?_⟩
  have hpow : 2 ^ ceilLog d 32 0 < 2 ^ 32 := by omega
  exact Nat.le_of_lt_succ ((Nat.pow_lt_pow_iff_right (by decide)).mp hpow)

section Product

variable {d : Nat} (h : Divisor d) (n : BitVec 32)
include h

end Product

/-- What `OSDiv` and `OSMod` give for a divisor that is not 0 or -1. -/
def DivOp.value (op : DivOp) (n d : Int) : Int := if op = .oSMod then n - n.tdiv d * d else n.tdiv d

end HashLink.X86
