import Mathlib.Data.BitVec

/-! The part of an x86-64 processor that a division uses: the registers, the stack slots of a frame,
what was pushed, and the flag for zero. An operation of 32 bits clears the upper half of the register
it writes. -/

namespace HashLink.X86

/-- `emit_mode`, for the operations on integers in registers. -/
inductive Mode where
  | i32
  | ptr
  deriving DecidableEq, Repr

@[reducible] def Mode.bits : Mode → Nat
  | i32 => 32
  | ptr => 64

abbrev Reg := Fin 16

def rax : Reg := ⟨0, Nat.succ_pos 15⟩
def rdx : Reg := ⟨2, by decide⟩
def rsp : Reg := ⟨4, by decide⟩
def rbp : Reg := ⟨5, by decide⟩
def r11 : Reg := ⟨11, by decide⟩

/-- An `ereg` of the allocator: a register, a slot of the frame, or a constant. -/
inductive Operand where
  | reg (r : Reg)
  | slot (offset : Int)
  | const (value : Int)
  deriving DecidableEq, Repr

namespace Operand

/-- An operand that the allocator may choose: it keeps `RSP`, `RBP` and the scratch register for the
back end. -/
def Allocated : Operand → Prop
  | reg r => r ≠ rsp ∧ r ≠ rbp ∧ r ≠ r11
  | _ => True

end Operand

structure Machine where
  regs : Reg → BitVec 64
  slots : Int → BitVec 64
  pushed : List (BitVec 64)
  zf : Bool

/-- The instructions. A jump has the number of instructions that it goes over. -/
inductive Instr where
  | push (r : Reg)
  | pop (r : Reg)
  | mov (mode : Mode) (dst src : Operand)
  | movsxd (dst src : Reg)
  | movImm (dst : Reg) (value : BitVec 64)
  | imul (mode : Mode) (dst : Reg) (src : Operand)
  | sar (mode : Mode) (dst : Reg) (count : Nat)
  | sub (mode : Mode) (dst src : Reg)
  | xor (mode : Mode) (dst src : Reg)
  | test (mode : Mode) (a : Reg)
  | cmp (mode : Mode) (a : Reg) (value : Int)
  | cdq (mode : Mode)
  | idiv (mode : Mode) (src : Reg)
  | div (mode : Mode) (src : Reg)
  | jz (passed : Nat)
  | jmp (passed : Nat)
  deriving DecidableEq, Repr

namespace Machine

/-- The value of an operand, in the bits of a mode. -/
def read (m : Machine) (mode : Mode) : Operand → BitVec mode.bits
  | .reg r => (m.regs r).setWidth _
  | .slot i => (m.slots i).setWidth _
  | .const v => BitVec.ofInt _ v

def setReg (m : Machine) (r : Reg) (v : BitVec 64) : Machine :=
  { m with regs := Function.update m.regs r v }

/-- Memory keeps the bits above the mode. -/
def write (m : Machine) (mode : Mode) (o : Operand) (v : BitVec mode.bits) : Machine :=
  match o with
  | .reg r => m.setReg r (v.setWidth 64)
  | .slot i =>
    { m with slots := Function.update m.slots i ((m.slots i >>> mode.bits) <<< mode.bits ||| v.setWidth 64) }
  | .const _ => m

/-- `RDX` and `RAX` as one number. -/
def dividend (m : Machine) (mode : Mode) (high : Int) : Int :=
  high * 2 ^ mode.bits + (m.read mode (.reg rax)).toNat

def divided (m : Machine) (mode : Mode) (low high n d : Int) : Option Machine :=
  if d = 0 ∨ n.tdiv d < low ∨ high ≤ n.tdiv d then none
  else some ((m.write mode (.reg rax) (BitVec.ofInt _ (n.tdiv d))).write mode (.reg rdx) (BitVec.ofInt _ (n.tmod d)))

/-- What an instruction does that is not a jump. -/
def exec (m : Machine) : Instr → Option Machine
  | .push r => some { m with pushed := m.regs r :: m.pushed }
  | .pop r =>
    match m.pushed with
    | [] => none
    | v :: pushed => some { m.setReg r v with pushed }
  | .mov mode dst src => some (m.write mode dst (m.read mode src))
  | .movsxd dst src => some (m.setReg dst (((m.regs src).setWidth 32).signExtend 64))
  | .movImm dst value => some (m.setReg dst value)
  | .imul mode dst src => some (m.write mode (.reg dst) (m.read mode (.reg dst) * m.read mode src))
  | .sar mode dst count => some (m.write mode (.reg dst) ((m.read mode (.reg dst)).sshiftRight count))
  | .sub mode dst src => some (m.write mode (.reg dst) (m.read mode (.reg dst) - m.read mode (.reg src)))
  | .xor mode dst src => some (m.write mode (.reg dst) (m.read mode (.reg dst) ^^^ m.read mode (.reg src)))
  | .test mode a => some { m with zf := m.read mode (.reg a) = 0 }
  | .cmp mode a value => some { m with zf := m.read mode (.reg a) = m.read mode (.const value) }
  | .cdq mode =>
    some (m.write mode (.reg rdx) ((m.read mode (.reg rax)).sshiftRight (mode.bits - 1)))
  | .idiv mode src =>
    m.divided mode (-2 ^ (mode.bits - 1)) (2 ^ (mode.bits - 1))
      (m.dividend mode (m.read mode (.reg rdx)).toInt) (m.read mode (.reg src)).toInt
  | .div mode src =>
    m.divided mode 0 (2 ^ mode.bits) (m.dividend mode (m.read mode (.reg rdx)).toNat)
      (m.read mode (.reg src)).toNat
  | .jz _ | .jmp _ => some m

end Machine

def afterInstr (m : Machine) (i : Instr) (rest : List Instr) : List Instr :=
  match i with
  | .jz passed => if m.zf then rest.drop passed else rest
  | .jmp passed => rest.drop passed
  | _ => rest

theorem length_afterInstr (m : Machine) (i : Instr) (rest : List Instr) :
    (afterInstr m i rest).length ≤ rest.length := by
  unfold afterInstr
  split
  · split
    · exact (List.length_drop ..).le.trans (Nat.sub_le _ _)
    · exact Nat.le_refl _
  · exact (List.length_drop ..).le.trans (Nat.sub_le _ _)
  · exact Nat.le_refl _

def run (code : List Instr) (m : Machine) : Option Machine :=
  match code with
  | [] => some m
  | i :: rest => (m.exec i).bind (run (afterInstr m i rest))
termination_by code.length
decreasing_by exact Nat.lt_succ_of_le (length_afterInstr _ _ _)

/-- A piece of code takes the machine from one state to another, whatever comes after it. -/
def Does (code : List Instr) (m m' : Machine) : Prop := ∀ tail, run (code ++ tail) m = run tail m'

theorem Does.nil (m : Machine) : Does [] m m := fun _ => rfl

theorem Does.append {code code' : List Instr} {m m' m'' : Machine} (h : Does code m m')
    (h' : Does code' m' m'') : Does (code ++ code') m m'' := by
  intro tail
  rw [List.append_assoc, h, h']

theorem Does.run {code : List Instr} {m m' : Machine} (h : Does code m m') : run code m = some m' := by
  have hrun := h []
  rw [List.append_nil] at hrun
  rw [hrun, X86.run]

theorem Does.single {i : Instr} {m m' : Machine} (hexec : m.exec i = some m')
    (hnext : ∀ rest, afterInstr m i rest = rest) : Does [i] m m' := by
  intro tail
  rw [List.singleton_append, X86.run, hexec, hnext]
  rfl

theorem Does.cons {i : Instr} {code : List Instr} {m m' m'' : Machine} (hexec : m.exec i = some m')
    (hnext : ∀ rest, afterInstr m i rest = rest) (h : Does code m' m'') : Does (i :: code) m m'' :=
  (Does.single hexec hnext).append h

theorem Does.jump {i : Instr} {passed code : List Instr} {m m' : Machine} (hexec : m.exec i = some m)
    (hnext : ∀ rest, afterInstr m i rest = rest.drop passed.length) (h : Does code m m') :
    Does (i :: (passed ++ code)) m m' := by
  intro tail
  rw [List.cons_append, X86.run, hexec, hnext, List.append_assoc, List.drop_left]
  exact h tail

end HashLink.X86
