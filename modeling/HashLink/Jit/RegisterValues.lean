import Mathlib.Data.List.Basic
import Mathlib.Tactic.IntervalCases

/-!
The values of registers in the code of the JIT: a word with a register, a kind and a signed offset of 21 bits. The
slots that the allocator hands out in a frame are such offsets.
-/

namespace HashLink.RegisterValues

inductive RKind where
  | rValue
  | rReg
  | rRegPtr
  | rConst
  | rPhi
  deriving DecidableEq, Repr

abbrev EReg := BitVec 32

def RKind.code : RKind → EReg
  | rValue => 0
  | rReg => 0x40000000
  | rRegPtr => 0x50000000
  | rConst => 0x60000000
  | rPhi => 0x70000000

def mkReg (v kind : BitVec 32) : EReg := v &&& 0x7F ||| kind

def mkRegVal (v kind val : BitVec 32) : EReg := mkReg v kind ||| val <<< 7 &&& 0x8FFFFF80

def regKind (r : EReg) : BitVec 32 := r &&& 0x70000000

def regReg (r : EReg) : BitVec 32 := r &&& 0x7F

def regValue (r : EReg) : BitVec 32 :=
  (if r &&& 0x8000000 ≠ 0 then r ||| 0xF0000000 else r &&& 0x0FFFFFFF).sshiftRight 7

def stackReg : BitVec 32 := 5

section Word

variable (v : BitVec 32) (kind : RKind) (val : BitVec 32)

theorem regKind_mkRegVal : regKind (mkRegVal v kind.code val) = kind.code := by
  unfold regKind mkRegVal mkReg
  apply BitVec.eq_of_getLsbD_eq
  intro i hi
  cases kind <;> interval_cases i <;> simp [RKind.code]

theorem regReg_mkRegVal : regReg (mkRegVal v kind.code val) = v &&& 0x7F := by
  unfold regReg mkRegVal mkReg
  apply BitVec.eq_of_getLsbD_eq
  intro i hi
  cases kind <;> interval_cases i <;> simp [RKind.code]

theorem sign_bit_iff (r : EReg) : r &&& 0x8000000 ≠ 0 ↔ r.getLsbD 27 = true := by
  have hbit : (0x8000000 : BitVec 32) = BitVec.twoPow 32 27 := by decide
  rw [hbit, BitVec.and_twoPow]
  cases r.getLsbD 27 <;> simp [BitVec.twoPow]

theorem regValue_eq (r : EReg) : regValue r = (r.extractLsb' 7 21).signExtend 32 := by
  unfold regValue
  simp only [sign_bit_iff]
  apply BitVec.eq_of_getLsbD_eq
  intro i hi
  cases hsign : r.getLsbD 27 <;> rw [BitVec.getLsbD_eq_getElem (by omega)] at hsign <;> interval_cases i <;>
    simp [BitVec.getElem_sshiftRight, BitVec.getElem_signExtend, BitVec.msb_eq_getLsbD_last, hsign]

theorem regValue_mkRegVal : regValue (mkRegVal v kind.code val) = (val.setWidth 21).signExtend 32 := by
  have hoffset : (mkRegVal v kind.code val).extractLsb' 7 21 = val.setWidth 21 := by
    unfold mkRegVal mkReg
    apply BitVec.eq_of_getLsbD_eq
    intro i hi
    cases kind <;> interval_cases i <;> simp [RKind.code]
  rw [regValue_eq, hoffset]

theorem regValue_iff (val : Int) :
    (regValue (mkRegVal v kind.code (BitVec.ofInt 32 val))).toInt = val ↔ -2 ^ 20 ≤ val ∧ val < 2 ^ 20 := by
  rw [regValue_mkRegVal, BitVec.toInt_signExtend_of_le (by decide), BitVec.toInt_setWidth, Int.bmod_eq_iff (by decide),
    BitVec.toNat_ofInt]
  omega

end Word

def jitPadSize (size k : Nat) : Nat :=
  if k = 0 then 0 else (-BitVec.ofNat 32 size &&& BitVec.ofNat 32 (k - 1)).toNat

/-- `hl_emit_mode_sizes`, by the number of the mode. -/
def hlEmitModeSizes : List Nat := [0, 1, 2, 4, 8, 8, 4, 0, 0]

/-- What needs a place in the frame of a function. -/
inductive Request where
  /-- A value that is spilled for the first time. -/
  | spill (mode : Fin 9)
  /-- `ALLOC_STACK`. -/
  | allocStack (size : Nat)
  /-- An argument that the caller left in the stack. -/
  | arg (i stride : Nat)
  deriving Repr

/-- A place in the frame: `MK_STACK_REG` and `MK_STACK_OFFS` differ by the kind. -/
structure Slot where
  kind : RKind
  pos : Int
  deriving DecidableEq, Repr

def Slot.reg (slot : Slot) : EReg := mkRegVal stackReg slot.kind.code (BitVec.ofInt 32 slot.pos)

/-- `regs_alloc_stack`: the size of the frame afterwards, which is of type `int`. -/
def regsAllocStack (stackSize size : Nat) : Option Nat :=
  let stackSize := stackSize + size
  let stackSize := stackSize + jitPadSize stackSize size
  if stackSize < 2 ^ 31 then some stackSize else none

/-- The place that a request gets, and the size of the frame then. -/
def assign (stackSize : Nat) : Request → Option (Slot × Nat)
  | .spill mode =>
    (regsAllocStack stackSize (hlEmitModeSizes.getD mode 0)).map fun (n : Nat) => (⟨.rRegPtr, -(n : Int)⟩, n)
  | .allocStack size => (regsAllocStack stackSize size).map fun (n : Nat) => (⟨.rReg, -(n : Int)⟩, n)
  | .arg i stride => some (⟨.rRegPtr, 2 * 8 + i * stride⟩, stackSize)

def assignAll : Nat → List Request → Option (List Slot × Nat)
  | n, [] => some ([], n)
  | n, r :: rs => do
      let (slot, n) ← assign n r
      let (slots, n) ← assignAll n rs
      return (slot :: slots, n)

/-- `shift_local`: the saved registers come before the other places. -/
def shiftLocal (stackOffset : Nat) (r : EReg) : EReg :=
  if regReg r ≠ stackReg ∨ (regKind r ≠ RKind.rReg.code ∧ regKind r ≠ RKind.rRegPtr.code) then r
  else if 0 ≤ (regValue r).toInt then r
  else mkRegVal stackReg (regKind r) (BitVec.ofInt 32 ((regValue r).toInt - stackOffset))

/-- The place itself, behind the saved registers. -/
def Slot.shift (stackOffset : Nat) (slot : Slot) : Slot :=
  { slot with pos := if 0 ≤ slot.pos then slot.pos else slot.pos - stackOffset }

/-- A word has the kind and the offset of its place. -/
structure Slot.Encoded (slot : Slot) (r : EReg) : Prop where
  reg : regReg r = stackReg
  kind : regKind r = slot.kind.code
  pos : (regValue r).toInt = slot.pos

def FrameRight (stackOffset : Nat) (requests : List Request) : Prop :=
  ∃ slots n, assignAll 0 requests = some (slots, n) ∧
    (∀ slot ∈ slots, slot.Encoded slot.reg ∧ (slot.shift stackOffset).Encoded (shiftLocal stackOffset slot.reg)) ∧
    ∀ slot ∈ slots, ∀ slot' ∈ slots, slot.pos ≠ slot'.pos → slot.reg ≠ slot'.reg ∧
      shiftLocal stackOffset slot.reg ≠ shiftLocal stackOffset slot'.reg

def nextSize (n : Nat) : Request → Nat
  | .spill mode =>
    let size := hlEmitModeSizes.getD mode 0
    n + size + jitPadSize (n + size) size
  | .allocStack size => n + size + jitPadSize (n + size) size
  | .arg _ _ => n

def frameSize (requests : List Request) : Nat := requests.foldl nextSize 0

structure FrameFits (stackOffset : Nat) (requests : List Request) : Prop where
  size : frameSize requests = 0 ∨ frameSize requests + stackOffset ≤ 2 ^ 20
  args : ∀ i stride, Request.arg i stride ∈ requests → 2 * 8 + i * stride < 2 ^ 20

section Words

variable {stackOffset : Nat} {slot slot' : Slot}

theorem encoded_reg_iff : slot.Encoded slot.reg ↔ -2 ^ 20 ≤ slot.pos ∧ slot.pos < 2 ^ 20 := by
  rw [← regValue_iff stackReg slot.kind]
  refine ⟨fun h => h.pos, fun h => ⟨?_, ?_, h⟩⟩
  · rw [Slot.reg, regReg_mkRegVal]
    rfl
  · rw [Slot.reg, regKind_mkRegVal]

theorem shiftLocal_reg (hkind : slot.kind = .rReg ∨ slot.kind = .rRegPtr) (h : slot.Encoded slot.reg) :
    shiftLocal stackOffset slot.reg = (slot.shift stackOffset).reg := by
  have hlocal : ¬(regReg slot.reg ≠ stackReg ∨
      (regKind slot.reg ≠ RKind.rReg.code ∧ regKind slot.reg ≠ RKind.rRegPtr.code)) := by
    rw [h.reg, h.kind]
    rcases hkind with hkind | hkind <;> simp [hkind]
  unfold shiftLocal Slot.shift
  rw [if_neg hlocal, h.pos, h.kind]
  split
  · rfl
  · rfl

theorem Slot.Encoded.reg_ne {r r' : EReg} (h : slot.Encoded r) (h' : slot'.Encoded r') (hne : slot.pos ≠ slot'.pos) :
    r ≠ r' := by
  rintro rfl
  exact hne (h.pos.symm.trans h'.pos)

theorem Slot.shift_ne (hne : slot.pos ≠ slot'.pos) : (slot.shift stackOffset).pos ≠ (slot'.shift stackOffset).pos := by
  unfold Slot.shift
  dsimp only
  split <;> split <;> omega

end Words

section Frame

variable {n m : Nat} {r : Request} {requests : List Request} {slot : Slot} {slots : List Slot}

def place (n : Nat) (r : Request) : Slot :=
  match r with
  | .spill _ => ⟨.rRegPtr, -(nextSize n r : Int)⟩
  | .allocStack _ => ⟨.rReg, -(nextSize n r : Int)⟩
  | .arg i stride => ⟨.rRegPtr, 2 * 8 + i * stride⟩

theorem le_nextSize (n : Nat) (r : Request) : n ≤ nextSize n r := by
  cases r <;> simp only [nextSize] <;> omega

theorem le_foldl_nextSize (n : Nat) (requests : List Request) : n ≤ requests.foldl nextSize n := by
  induction requests generalizing n with
  | nil => exact Nat.le_refl n
  | cons r requests ih => exact (le_nextSize n r).trans (ih _)

theorem assign_some (h : assign n r = some (slot, m)) : m = nextSize n r ∧ slot = place n r := by
  cases r with
  | arg i stride =>
    cases h
    exact ⟨rfl, rfl⟩
  | _ =>
    obtain ⟨k, hk, heq⟩ := Option.map_eq_some_iff.mp h
    unfold regsAllocStack at hk
    dsimp only at hk
    split at hk
    · cases hk
      cases heq
      exact ⟨rfl, rfl⟩
    · cases hk

theorem assign_fits (h : nextSize n r < 2 ^ 31) : assign n r = some (place n r, nextSize n r) := by
  cases r with
  | arg i stride => rfl
  | _ =>
    unfold assign regsAllocStack
    dsimp only
    rw [nextSize] at h
    rw [if_pos h]
    rfl

/-- What the places of a frame are: they go down from the size before, or they are those of arguments. -/
structure Placed (n m : Nat) (requests : List Request) (slots : List Slot) : Prop where
  size : m = requests.foldl nextSize n
  kind : ∀ slot ∈ slots, slot.kind = .rReg ∨ slot.kind = .rRegPtr
  pos : ∀ slot ∈ slots, (-(m : Int) ≤ slot.pos ∧ slot.pos ≤ 0) ∨
    ∃ (i stride : Nat), Request.arg i stride ∈ requests ∧ slot.pos = 2 * 8 + i * stride
  args : ∀ i stride, Request.arg i stride ∈ requests → ⟨.rRegPtr, 2 * 8 + i * stride⟩ ∈ slots
  last : n = m ∨ ∃ slot ∈ slots, slot.pos = -(m : Int)

theorem assignAll_placed (h : assignAll n requests = some (slots, m)) : Placed n m requests slots := by
  induction requests generalizing n slots with
  | nil =>
    cases h
    exact ⟨rfl, fun _ h => absurd h List.not_mem_nil, fun _ h => absurd h List.not_mem_nil,
      fun _ _ h => absurd h List.not_mem_nil, .inl rfl⟩
  | cons r requests ih =>
    rw [assignAll] at h
    obtain ⟨⟨slot, k⟩, hassign, hrest⟩ := Option.bind_eq_some_iff.mp h
    obtain ⟨⟨slots', m'⟩, hall, heq⟩ := Option.bind_eq_some_iff.mp hrest
    cases heq
    obtain ⟨rfl, rfl⟩ := assign_some hassign
    have hplaced := ih hall
    have hle : nextSize n r ≤ m := hplaced.size ▸ le_foldl_nextSize (nextSize n r) requests
    refine ⟨hplaced.size, List.forall_mem_cons.mpr ⟨?_, hplaced.kind⟩, List.forall_mem_cons.mpr ⟨?_, ?_⟩, ?_, ?_⟩
    · cases r with
      | allocStack size => exact .inl rfl
      | _ => exact .inr rfl
    · cases r with
      | arg i stride => exact .inr ⟨i, stride, List.mem_cons_self, rfl⟩
      | _ =>
        left
        dsimp only [place]
        omega
    · intro slot hslot
      exact (hplaced.pos slot hslot).imp_right fun ⟨i, stride, hmem, hpos⟩ =>
        ⟨i, stride, List.mem_cons_of_mem _ hmem, hpos⟩
    · intro i stride hmem
      rcases List.mem_cons.mp hmem with rfl | hmem
      · exact List.mem_cons_self
      · exact List.mem_cons_of_mem _ (hplaced.args i stride hmem)
    · rcases hplaced.last with hlast | ⟨slot, hslot, hpos⟩
      · cases r with
        | arg i stride => exact .inl hlast
        | _ => exact .inr ⟨_, List.mem_cons_self, by rw [← hlast]; rfl⟩
      · exact .inr ⟨slot, List.mem_cons_of_mem _ hslot, hpos⟩

theorem assignAll_fits (h : requests.foldl nextSize n < 2 ^ 31) :
    ∃ slots, assignAll n requests = some (slots, requests.foldl nextSize n) := by
  induction requests generalizing n with
  | nil => exact ⟨[], rfl⟩
  | cons r requests ih =>
    obtain ⟨slots, hslots⟩ := ih h
    have hnext : nextSize n r < 2 ^ 31 := Nat.lt_of_le_of_lt (le_foldl_nextSize (nextSize n r) requests) h
    refine ⟨place n r :: slots, ?_⟩
    rw [assignAll, assign_fits hnext]
    show (assignAll (nextSize n r) requests).bind _ = _
    rw [hslots]
    rfl

end Frame

theorem FrameRight.fits {stackOffset : Nat} {requests : List Request} (h : FrameRight stackOffset requests) :
    FrameFits stackOffset requests := by
  obtain ⟨slots, n, hassign, hencoded, -⟩ := h
  have hplaced := assignAll_placed hassign
  have hshifted : ∀ slot ∈ slots, -2 ^ 20 ≤ (slot.shift stackOffset).pos ∧ (slot.shift stackOffset).pos < 2 ^ 20 := by
    intro slot hslot
    obtain ⟨henc, hshift⟩ := hencoded slot hslot
    rw [shiftLocal_reg (hplaced.kind slot hslot) henc] at hshift
    exact encoded_reg_iff.mp hshift
  refine ⟨?_, fun i stride hmem => ?_⟩
  · show requests.foldl nextSize 0 = 0 ∨ requests.foldl nextSize 0 + stackOffset ≤ 2 ^ 20
    rw [← hplaced.size]
    rcases hplaced.last with hzero | ⟨slot, hslot, hpos⟩
    · exact .inl hzero.symm
    · have hle := (hshifted slot hslot).1
      unfold Slot.shift at hle
      dsimp only at hle
      rw [hpos] at hle
      split at hle <;> omega
  · have hlt := (encoded_reg_iff.mp (hencoded _ (hplaced.args i stride hmem)).1).2
    dsimp only at hlt
    omega

theorem FrameFits.right {stackOffset : Nat} {requests : List Request} (h : FrameFits stackOffset requests) :
    FrameRight stackOffset requests := by
  have hsize : requests.foldl nextSize 0 = 0 ∨ requests.foldl nextSize 0 + stackOffset ≤ 2 ^ 20 := h.size
  obtain ⟨slots, hassign⟩ := @assignAll_fits 0 requests (by omega)
  have hplaced := assignAll_placed hassign
  have hrange : ∀ slot ∈ slots, (-2 ^ 20 ≤ slot.pos ∧ slot.pos < 2 ^ 20) ∧
      -2 ^ 20 ≤ (slot.shift stackOffset).pos ∧ (slot.shift stackOffset).pos < 2 ^ 20 := by
    intro slot hslot
    unfold Slot.shift
    dsimp only
    rcases hplaced.pos slot hslot with hlocal | ⟨i, stride, hmem, hpos⟩
    · split <;> omega
    · have hlt := h.args i stride hmem
      split <;> omega
  have hencoded : ∀ slot ∈ slots,
      slot.Encoded slot.reg ∧ (slot.shift stackOffset).Encoded (shiftLocal stackOffset slot.reg) := by
    intro slot hslot
    obtain ⟨hpos, hshift⟩ := hrange slot hslot
    have henc := encoded_reg_iff.mpr hpos
    rw [shiftLocal_reg (hplaced.kind slot hslot) henc]
    exact ⟨henc, encoded_reg_iff.mpr hshift⟩
  refine ⟨slots, _, hassign, hencoded, fun slot hslot slot' hslot' hne => ?_⟩
  obtain ⟨henc, hshift⟩ := hencoded slot hslot
  obtain ⟨henc', hshift'⟩ := hencoded slot' hslot'
  exact ⟨henc.reg_ne henc' hne, hshift.reg_ne hshift' (Slot.shift_ne hne)⟩

/-- A word keeps its kind, and its offset when that has 21 bits; so the places of a frame can be told from their words
exactly when their offsets have. -/
theorem register_values_iff (v : BitVec 32) (kind : RKind) (val : Int) (stackOffset : Nat) (requests : List Request) :
    (regKind (mkRegVal v kind.code (BitVec.ofInt 32 val)) = kind.code ∧
        ((regValue (mkRegVal v kind.code (BitVec.ofInt 32 val))).toInt = val ↔ -2 ^ 20 ≤ val ∧ val < 2 ^ 20)) ∧
      (FrameRight stackOffset requests ↔ FrameFits stackOffset requests) :=
  ⟨⟨regKind_mkRegVal v kind _, regValue_iff v kind val⟩, FrameRight.fits, FrameFits.right⟩

theorem foldl_nextSize_replicate (count k : Nat) :
    (List.replicate count (.spill 4)).foldl nextSize (8 * k) = 8 * (k + count) := by
  induction count generalizing k with
  | zero => rfl
  | succ count ih =>
    have hpad : jitPadSize (8 * k + 8) 8 = 0 := by
      unfold jitPadSize
      rw [if_neg (by decide), BitVec.toNat_and, BitVec.toNat_neg, BitVec.toNat_ofNat]
      have hmask : (BitVec.ofNat 32 (8 - 1)).toNat = 2 ^ 3 - 1 := rfl
      rw [hmask, Nat.and_two_pow_sub_one_eq_mod]
      omega
    have hnext : nextSize (8 * k) (.spill 4) = 8 * (k + 1) := by
      show 8 * k + 8 + jitPadSize (8 * k + 8) 8 = _
      rw [hpad]
      omega
    rw [List.replicate_succ, List.foldl_cons, hnext, ih (k + 1)]
    omega

/-- The slot behind the first 2 ^ 20 bytes of a frame is taken for an argument. -/
theorem large_frame_not_right : ¬FrameRight 0 (List.replicate 131073 (.spill 4)) := by
  intro h
  have hsize : frameSize (List.replicate 131073 (.spill 4)) = 8 * (0 + 131073) := foldl_nextSize_replicate 131073 0
  rcases h.fits.size with hzero | hle
  · rw [hsize] at hzero
    exact absurd hzero (by decide)
  · rw [hsize] at hle
    exact absurd hle (by decide)

end HashLink.RegisterValues
