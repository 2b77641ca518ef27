import HashLink.Jit.LogicalImmediate

/-!
Constants in registers of AArch64: `load_immediate` picks a single instruction where one makes the value,
and moves it by halfwords where none does.
-/

namespace HashLink.Arm64

/-- Number 31 is the zero register, or the stack pointer where an instruction says so. -/
abbrev Arm64Reg := Fin 32

def XZR : Arm64Reg := 31

inductive MovWide where
  | movn
  | movz
  | movk
  deriving DecidableEq, Repr

inductive Instr where
  /-- ORR of a register that is not shifted. -/
  | orrReg (sf : Bool) (rm rn rd : Arm64Reg)
  | orrImm (sf : Bool) (fields : LogicalFields) (rn rd : Arm64Reg)
  | movWide (sf : Bool) (opc : MovWide) (hw : Nat) (imm16 : BitVec 16) (rd : Arm64Reg)
  deriving DecidableEq, Repr

abbrev Registers := Arm64Reg → BitVec 64

def readReg (regs : Registers) (r : Arm64Reg) : BitVec 64 := if r = XZR then 0 else regs r

def writeReg (regs : Registers) (r : Arm64Reg) (v : BitVec 64) : Registers :=
  if r = XZR then regs else Function.update regs r v

def atWidth (sf : Bool) (v : BitVec 64) : BitVec 64 := if sf then v else (v.setWidth 32).setWidth 64

def totalHw (sf : Bool) : Nat := if sf then 4 else 2

def placed (imm16 : BitVec 16) (hw : Nat) : BitVec 64 := imm16.setWidth 64 <<< (16 * hw)

def movWideValue (opc : MovWide) (hw : Nat) (imm16 : BitVec 16) (old : BitVec 64) : BitVec 64 :=
  match opc with
  | .movn => ~~~placed imm16 hw
  | .movz => placed imm16 hw
  | .movk => old &&& ~~~placed 0xFFFF hw ||| placed imm16 hw

/-- None when the processor has no such instruction. -/
def exec (regs : Registers) : Instr → Option Registers
  | .orrReg sf rm rn rd => some (writeReg regs rd (atWidth sf (readReg regs rn ||| readReg regs rm)))
  | .orrImm sf fields rn rd =>
    if sf = false ∧ fields.n ≠ 0 then none
    else
      -- here 31 is the stack pointer as destination
      (decodeBitMasks fields).map fun imm => Function.update regs rd (atWidth sf (readReg regs rn ||| imm))
  | .movWide sf opc hw imm16 rd =>
    if totalHw sf ≤ hw then none
    else some (writeReg regs rd (atWidth sf (movWideValue opc hw imm16 (readReg regs rd))))

def run (regs : Registers) (code : List Instr) : Option Registers := code.foldlM exec regs

def halfword (val : BitVec 64) (i : Nat) : BitVec 16 := (val >>> (16 * i)).setWidth 16

/-- The halfwords that the first instruction leaves, all ones when it is MOVN. -/
def skipped (useMovn : Bool) : BitVec 16 := if useMovn then 0xFFFF else 0

def firstMove (useMovn sf : Bool) (i : Nat) (hwVal : BitVec 16) (dst : Arm64Reg) : Instr :=
  if useMovn then .movWide sf .movn i (~~~hwVal) dst else .movWide sf .movz i hwVal dst

/-- The loops over the halfwords, from one on. -/
def wideMoves (useMovn sf : Bool) (val : BitVec 64) (dst : Arm64Reg) : Bool → List Nat → List Instr
  | _, [] => []
  | first, i :: rest =>
    if halfword val i = skipped useMovn then wideMoves useMovn sf val dst first rest
    else if first then
      firstMove useMovn sf i (halfword val i) dst :: wideMoves useMovn sf val dst false rest
    else .movWide sf .movk i (halfword val i) dst :: wideMoves useMovn sf val dst false rest

def nonzeroCount (val : BitVec 64) (is64 : Bool) : Nat :=
  (List.range (totalHw is64)).countP fun i => halfword val i ≠ 0

def onesCount (val : BitVec 64) (is64 : Bool) : Nat :=
  (List.range (totalHw is64)).countP fun i => halfword val i = 0xFFFF

def loadImmediate (val : BitVec 64) (dst : Arm64Reg) (is64 : Bool) : List Instr :=
  if val = 0 then [.orrReg is64 XZR XZR dst]
  else if is64 = false ∧ val = 0xFFFFFFFF ∨ is64 = true ∧ val = -1 then [.movWide is64 .movn 0 0 dst]
  else if val.toInt < 0 ∧ -65536 ≤ val.toInt then [.movWide is64 .movn 0 ((~~~val).setWidth 16) dst]
  else if 0 < val.toInt ∧ val.toInt ≤ 65535 then [.movWide is64 .movz 0 (val.setWidth 16) dst]
  else
    match if is64 then isLogicalImmediate64 val else isLogicalImmediate32 (val.setWidth 32) with
    | some fields => [.orrImm is64 fields XZR dst]
    | none =>
      let useMovn := decide (nonzeroCount val is64 < onesCount val is64)
      wideMoves useMovn is64 val dst true (List.range (totalHw is64))

theorem getLsbD_halfword (val : BitVec 64) (i : Nat) {k : Nat} (hk : k < 16) :
    (halfword val i).getLsbD k = val.getLsbD (16 * i + k) := by
  unfold halfword
  rw [BitVec.getLsbD_setWidth, decide_eq_true hk, Bool.true_and, BitVec.getLsbD_ushiftRight]

variable {v : BitVec 64} {dst : Arm64Reg} {regs : Registers}
variable {w : BitVec 64} {n : Nat}

theorem bit_of_halfwords (h : ∀ j < n, halfword v j = halfword w j) {i : Nat} (hi : i < 16 * n) :
    v.getLsbD i = w.getLsbD i := by
  have hbit := congrArg (fun x : BitVec 16 => x.getLsbD (i % 16)) (h (i / 16) (by omega))
  rwa [getLsbD_halfword v _ (Nat.mod_lt i (by decide)), getLsbD_halfword w _ (Nat.mod_lt i (by decide)),
    Nat.div_add_mod] at hbit

theorem eq_of_halfwords (h : ∀ j < 4, halfword v j = halfword w j) : v = w := by
  apply BitVec.eq_of_getLsbD_eq
  intro i hi
  exact bit_of_halfwords h (by omega)

theorem low_eq_of_halfwords (h : ∀ j < 2, halfword v j = halfword w j) :
    v.setWidth 32 = w.setWidth 32 := by
  apply BitVec.eq_of_getLsbD_eq
  intro i hi
  rw [BitVec.getLsbD_setWidth, BitVec.getLsbD_setWidth, bit_of_halfwords h (by omega)]

theorem halfword_placed (imm16 : BitVec 16) {hw j : Nat} (hj : j < 4) :
    halfword (placed imm16 hw) j = if j = hw then imm16 else 0 := by
  apply BitVec.eq_of_getLsbD_eq
  intro k hk
  rw [getLsbD_halfword _ _ hk]
  unfold placed
  rw [BitVec.getLsbD_shiftLeft, BitVec.getLsbD_setWidth, decide_eq_true (by omega), Bool.true_and]
  split
  case isTrue heq =>
      rw [heq, decide_eq_false (by omega), decide_eq_true (by omega), Nat.add_sub_cancel_left]
      rfl
  case isFalse hne =>
      rw [show BitVec.getLsbD 0 k = false from BitVec.getLsbD_zero]
      rcases Nat.lt_or_gt_of_ne hne with hlt | hgt
      · rw [decide_eq_true (by omega)]
        rfl
      · rw [BitVec.getLsbD_of_ge imm16 _ (by omega), Bool.and_false, Bool.and_false]

theorem halfword_not (v : BitVec 64) {j : Nat} (hj : j < 4) : halfword (~~~v) j = ~~~halfword v j := by
  apply BitVec.eq_of_getLsbD_eq
  intro k hk
  rw [getLsbD_halfword _ _ hk, BitVec.getLsbD_not, BitVec.getLsbD_not, getLsbD_halfword _ _ hk,
    decide_eq_true hk, decide_eq_true (by omega)]

theorem halfword_and (v w : BitVec 64) (j : Nat) : halfword (v &&& w) j = halfword v j &&& halfword w j := by
  apply BitVec.eq_of_getLsbD_eq
  intro k hk
  rw [getLsbD_halfword _ _ hk, BitVec.getLsbD_and, BitVec.getLsbD_and, getLsbD_halfword _ _ hk,
    getLsbD_halfword _ _ hk]

theorem halfword_or (v w : BitVec 64) (j : Nat) : halfword (v ||| w) j = halfword v j ||| halfword w j := by
  apply BitVec.eq_of_getLsbD_eq
  intro k hk
  rw [getLsbD_halfword _ _ hk, BitVec.getLsbD_or, BitVec.getLsbD_or, getLsbD_halfword _ _ hk,
    getLsbD_halfword _ _ hk]

theorem halfword_atWidth (sf : Bool) (v : BitVec 64) {j : Nat} (hj : j < 4) :
    halfword (atWidth sf v) j = if j < totalHw sf then halfword v j else 0 := by
  unfold atWidth totalHw
  cases sf with
  | true => rw [if_pos rfl, if_pos rfl, if_pos hj]
  | false =>
    rw [if_neg Bool.false_ne_true, if_neg Bool.false_ne_true]
    apply BitVec.eq_of_getLsbD_eq
    intro k hk
    rw [getLsbD_halfword _ _ hk, BitVec.getLsbD_setWidth, BitVec.getLsbD_setWidth,
      decide_eq_true (by omega), Bool.true_and]
    split
    case isTrue hlt => rw [decide_eq_true (by omega), Bool.true_and, getLsbD_halfword _ _ hk]
    case isFalse hge =>
        rw [decide_eq_false (by omega), Bool.false_and]
        exact BitVec.getLsbD_zero.symm

/-! ### The instructions, halfword by halfword -/

theorem halfword_movn (imm16 : BitVec 16) (old : BitVec 64) {hw j : Nat} (hj : j < 4) :
    halfword (movWideValue .movn hw imm16 old) j = if j = hw then ~~~imm16 else 0xFFFF := by
  unfold movWideValue
  rw [halfword_not _ hj, halfword_placed _ hj]
  split
  · rfl
  · rfl

theorem halfword_movz (imm16 : BitVec 16) (old : BitVec 64) {hw j : Nat} (hj : j < 4) :
    halfword (movWideValue .movz hw imm16 old) j = if j = hw then imm16 else 0 :=
  halfword_placed imm16 hj

theorem halfword_movk (imm16 : BitVec 16) (old : BitVec 64) {hw j : Nat} (hj : j < 4) :
    halfword (movWideValue .movk hw imm16 old) j = if j = hw then imm16 else halfword old j := by
  unfold movWideValue
  rw [halfword_or, halfword_and, halfword_not _ hj, halfword_placed _ hj, halfword_placed _ hj]
  split
  · rw [show ~~~(0xFFFF : BitVec 16) = 0#16 from rfl, BitVec.and_zero, BitVec.zero_or]
  · rw [show ~~~(0 : BitVec 16) = BitVec.allOnes 16 from rfl, BitVec.and_allOnes]
    exact BitVec.or_zero

theorem exec_movWide {sf : Bool} {opc : MovWide} {hw : Nat} {imm16 : BitVec 16} (hdst : dst ≠ XZR)
    (hhw : hw < totalHw sf) :
    exec regs (.movWide sf opc hw imm16 dst) =
      some (Function.update regs dst (atWidth sf (movWideValue opc hw imm16 (regs dst)))) := by
  unfold exec writeReg readReg
  dsimp only
  rw [if_neg (Nat.not_le.mpr hhw), if_neg hdst, if_neg hdst]

/-- After the halfwords below `i`, the others are those that the first instruction leaves. -/
def Filled (useMovn sf : Bool) (val : BitVec 64) (i : Nat) (v : BitVec 64) : Prop :=
  ∀ j < 4, halfword v j =
    if j < totalHw sf then if j < i then halfword val j else skipped useMovn else 0

variable {useMovn sf : Bool} {val : BitVec 64} {i : Nat}

theorem Filled.atWidth_eq (h : Filled useMovn sf val (totalHw sf) v) : v = atWidth sf val := by
  apply eq_of_halfwords
  intro j hj
  rw [h j hj, halfword_atWidth sf val hj]
  split
  · rfl
  · rfl

theorem filled_first (hi : i < totalHw sf) (old : BitVec 64) (hskip : ∀ j < i, halfword val j = skipped useMovn) :
    Filled useMovn sf val (i + 1) (atWidth sf (movWideValue (if useMovn then .movn else .movz) i
      (if useMovn then ~~~halfword val i else halfword val i) old)) := by
  intro j hj
  rw [halfword_atWidth sf _ hj]
  split
  case isFalse => rfl
  case isTrue hlt =>
      have hvalue : halfword (movWideValue (if useMovn then .movn else .movz) i
          (if useMovn then ~~~halfword val i else halfword val i) old) j =
          if j = i then halfword val i else skipped useMovn := by
        cases useMovn with
        | false => exact halfword_movz _ old hj
        | true =>
          rw [if_pos rfl, if_pos rfl, halfword_movn _ old hj, BitVec.not_not]
          rfl
      rw [hvalue]
      rcases Nat.lt_trichotomy j i with hless | rfl | hmore
      · rw [if_neg (Nat.ne_of_lt hless), if_pos (by omega), hskip j hless]
      · rw [if_pos rfl, if_pos (by omega)]
      · rw [if_neg (Nat.ne_of_gt hmore), if_neg (by omega)]

theorem filled_next (h : Filled useMovn sf val i v) :
    Filled useMovn sf val (i + 1) (atWidth sf (movWideValue .movk i (halfword val i) v)) := by
  intro j hj
  rw [halfword_atWidth sf _ hj]
  split
  case isFalse => rfl
  case isTrue hlt =>
      rw [halfword_movk _ v hj, h j hj, if_pos hlt]
      rcases Nat.lt_trichotomy j i with hless | rfl | hmore
      · rw [if_neg (Nat.ne_of_lt hless), if_pos hless, if_pos (by omega)]
      · rw [if_pos rfl, if_pos (by omega)]
      · rw [if_neg (Nat.ne_of_gt hmore), if_neg (by omega), if_neg (by omega)]

theorem filled_skip (h : Filled useMovn sf val i v) (hskip : halfword val i = skipped useMovn) :
    Filled useMovn sf val (i + 1) v := by
  intro j hj
  rw [h j hj]
  split
  case isFalse => rfl
  case isTrue hlt =>
      rcases Nat.lt_trichotomy j i with hless | rfl | hmore
      · rw [if_pos hless, if_pos (by omega)]
      · rw [if_neg (Nat.lt_irrefl j), if_pos (by omega), hskip]
      · rw [if_neg (by omega), if_neg (by omega)]

def Leaves (regs : Registers) (code : List Instr) (dst : Arm64Reg) (v : BitVec 64) : Prop :=
  ∃ regs', run regs code = some regs' ∧ regs' dst = v ∧ ∀ r, r ≠ dst → regs' r = regs r

theorem leaves_cons {instr : Instr} {code : List Instr}
    (hexec : exec regs instr = some (Function.update regs dst w))
    (hrest : Leaves (Function.update regs dst w) code dst v) : Leaves regs (instr :: code) dst v := by
  obtain ⟨regs', hrun, hdst, hframe⟩ := hrest
  refine ⟨regs', ?_, hdst, fun r hr => ?_⟩
  · unfold run
    rw [List.foldlM_cons, hexec]
    exact hrun
  · rw [hframe r hr, Function.update_of_ne hr]

theorem leaves_single {instr : Instr} (hexec : exec regs instr = some (Function.update regs dst v)) :
    Leaves regs [instr] dst v :=
  leaves_cons hexec ⟨_, rfl, Function.update_self dst v regs, fun _ _ => rfl⟩

theorem firstMove_eq (useMovn sf : Bool) (i : Nat) (hwVal : BitVec 16) (dst : Arm64Reg) :
    firstMove useMovn sf i hwVal dst = .movWide sf (if useMovn then .movn else .movz) i
      (if useMovn then ~~~hwVal else hwVal) dst := by
  cases useMovn
  · rfl
  · rfl

theorem wideMoves_rest (hdst : dst ≠ XZR) :
    ∀ {i : Nat} {regs : Registers}, i + n = totalHw sf → Filled useMovn sf val i (regs dst) →
      Leaves regs (wideMoves useMovn sf val dst false (List.range' i n)) dst (atWidth sf val) := by
  induction n with
  | zero =>
    intro i regs hlen hfill
    rw [Nat.add_zero] at hlen
    rw [hlen] at hfill
    exact ⟨regs, rfl, hfill.atWidth_eq, fun _ _ => rfl⟩
  | succ n ih =>
    intro i regs hlen hfill
    rw [List.range'_succ]
    unfold wideMoves
    split
    case isTrue hskip => exact ih (by omega) (filled_skip hfill hskip)
    case isFalse =>
        rw [if_neg Bool.false_ne_true]
        refine leaves_cons (exec_movWide hdst (by omega)) (ih (by omega) ?_)
        rw [Function.update_self]
        exact filled_next hfill

theorem wideMoves_first (hdst : dst ≠ XZR) (hsome : ¬∀ j < totalHw sf, halfword val j = skipped useMovn) :
    ∀ {i : Nat} {regs : Registers}, i + n = totalHw sf → (∀ j < i, halfword val j = skipped useMovn) →
      Leaves regs (wideMoves useMovn sf val dst true (List.range' i n)) dst (atWidth sf val) := by
  induction n with
  | zero =>
    intro i regs hlen hskips
    rw [Nat.add_zero] at hlen
    rw [hlen] at hskips
    exact absurd hskips hsome
  | succ n ih =>
    intro i regs hlen hskips
    rw [List.range'_succ]
    unfold wideMoves
    split
    case isTrue hskip =>
        apply ih (by omega)
        intro j hj
        rcases Nat.lt_or_eq_of_le (Nat.le_of_lt_succ hj) with hlt | rfl
        · exact hskips j hlt
        · exact hskip
    case isFalse =>
        rw [if_pos rfl, firstMove_eq]
        refine leaves_cons (exec_movWide hdst (by omega)) (wideMoves_rest hdst (by omega) ?_)
        rw [Function.update_self]
        exact filled_first (by omega) _ hskips

/-- A value of 32 bits, with its sign or with zeros above. -/
def Extends32 (val : BitVec 64) : Prop :=
  val = (val.setWidth 32).signExtend 64 ∨ val = (val.setWidth 32).setWidth 64

/-- The word whose halfwords are all skipped. -/
def blank (useMovn : Bool) : BitVec 64 := if useMovn then -1 else 0

theorem halfword_blank (useMovn : Bool) : ∀ j < 4, halfword (blank useMovn) j = skipped useMovn := by
  cases useMovn
  · decide
  · decide

theorem some_not_skipped (hzero : val ≠ 0) (hones : ¬(sf = false ∧ val = 0xFFFFFFFF ∨ sf = true ∧ val = -1))
    (hnegative : ¬(val.toInt < 0 ∧ -65536 ≤ val.toInt)) (hext : sf = true ∨ Extends32 val) :
    ¬∀ j < totalHw sf, halfword val j = skipped useMovn := by
  intro hall
  have hne : val ≠ -1 := by
    rintro rfl
    exact hnegative (by decide)
  cases sf with
  | true =>
    have heq : val = blank useMovn := by
      apply eq_of_halfwords
      intro j hj
      rw [hall j hj, halfword_blank useMovn j hj]
    cases useMovn with
    | false => exact hzero heq
    | true => exact hne heq
  | false =>
    have hlow : val.setWidth 32 = (blank useMovn).setWidth 32 := by
      apply low_eq_of_halfwords
      intro j hj
      rw [hall j hj, halfword_blank useMovn j (by omega)]
    rcases hext with hfalse | hext
    · cases hfalse
    · unfold Extends32 at hext
      rw [hlow] at hext
      cases useMovn with
      | false =>
        rcases hext with hext | hext
        · exact hzero hext
        · exact hzero hext
      | true =>
        rcases hext with hext | hext
        · exact hne hext
        · exact hones (Or.inl ⟨rfl, hext⟩)

theorem exec_orrImm {fields : LogicalFields} {imm : BitVec 64} (hwidth : sf = true ∨ fields.n = 0)
    (hdecode : decodeBitMasks fields = some imm) :
    exec regs (.orrImm sf fields XZR dst) = some (Function.update regs dst (atWidth sf imm)) := by
  have hvalid : ¬(sf = false ∧ fields.n ≠ 0) := by
    rintro ⟨rfl, hn⟩
    rcases hwidth with hfalse | hzero
    · cases hfalse
    · exact hn hzero
  unfold exec
  dsimp only
  rw [if_neg hvalid, hdecode]
  change some (Function.update regs dst (atWidth sf (0#64 ||| imm))) = _
  rw [BitVec.zero_or]

theorem logical_leaves {fields : LogicalFields}
    (h : (if sf then isLogicalImmediate64 val else isLogicalImmediate32 (val.setWidth 32)) = some fields) :
    Leaves regs [.orrImm sf fields XZR dst] dst (atWidth sf val) := by
  apply leaves_single
  cases sf with
  | true =>
    rw [if_pos rfl] at h
    exact exec_orrImm (Or.inl rfl) (isLogicalImmediate64_decode h).2
  | false =>
    rw [if_neg Bool.false_ne_true] at h
    obtain ⟨-, hn, hdecode⟩ := isLogicalImmediate32_decode h
    rw [exec_orrImm (Or.inr hn) hdecode]
    unfold atWidth
    rw [if_neg Bool.false_ne_true, if_neg Bool.false_ne_true, setWidth_replicate32]

theorem movn_zero (old : BitVec 64) : movWideValue .movn 0 0 old = -1 := by
  change ~~~placed 0 0 = -1
  decide

theorem movn_small (h : val.toInt < 0 ∧ -65536 ≤ val.toInt) (old : BitVec 64) :
    movWideValue .movn 0 ((~~~val).setWidth 16) old = val := by
  have hnot : (~~~val).toNat < 65536 := by
    rw [BitVec.toInt_eq_toNat_cond] at h
    rw [BitVec.toNat_not]
    omega
  have hfield : placed ((~~~val).setWidth 16) 0 = ~~~val := by
    apply BitVec.eq_of_toNat_eq
    unfold placed
    rw [Nat.mul_zero, BitVec.shiftLeft_zero, BitVec.toNat_setWidth, BitVec.toNat_setWidth]
    omega
  unfold movWideValue
  rw [hfield, BitVec.not_not]

theorem movz_small (h : 0 < val.toInt ∧ val.toInt ≤ 65535) (old : BitVec 64) :
    movWideValue .movz 0 (val.setWidth 16) old = val := by
  have hlt : val.toNat < 65536 := by
    rw [BitVec.toInt_eq_toNat_cond] at h
    omega
  apply BitVec.eq_of_toNat_eq
  unfold movWideValue placed
  rw [Nat.mul_zero, BitVec.shiftLeft_zero, BitVec.toNat_setWidth, BitVec.toNat_setWidth]
  omega

theorem loadImmediate_leaves (hdst : dst ≠ XZR) (hext : sf = true ∨ Extends32 val) (regs : Registers) :
    Leaves regs (loadImmediate val dst sf) dst (atWidth sf val) := by
  have hhw : 0 < totalHw sf := by
    cases sf
    · decide
    · decide
  unfold loadImmediate
  split
  case isTrue hzero =>
      apply leaves_single
      unfold exec writeReg readReg
      dsimp only
      rw [if_pos rfl, if_neg hdst, hzero, BitVec.or_self]
  case isFalse hzero =>
      split
      case isTrue hones =>
          apply leaves_single
          rw [exec_movWide hdst hhw, movn_zero]
          rcases hones with ⟨rfl, rfl⟩ | ⟨rfl, rfl⟩
          · rw [show atWidth false (-1) = atWidth false 0xFFFFFFFF by decide]
          · rfl
      case isFalse hones =>
          split
          case isTrue hsmall =>
              apply leaves_single
              rw [exec_movWide hdst hhw, movn_small hsmall]
          case isFalse hnegative =>
              split
              case isTrue hsmall =>
                  apply leaves_single
                  rw [exec_movWide hdst hhw, movz_small hsmall]
              case isFalse =>
                  split
                  case h_1 fields hfields => exact logical_leaves hfields
                  case h_2 =>
                      rw [List.range_eq_range']
                      exact wideMoves_first hdst (some_not_skipped hzero hones hnegative hext)
                        (Nat.zero_add _) fun j hj => absurd hj (Nat.not_lt_zero j)

theorem append_eq_replicate32 (v : BitVec 32) : v ++ v = replicate32 v := by
  apply BitVec.eq_of_getLsbD_eq
  intro j hj
  rw [BitVec.getLsbD_append, getLsbD_replicate32 v hj]
  split
  case isTrue hlt => rw [Nat.mod_eq_of_lt hlt]
  case isFalse hge => rw [show j % 32 = j - 32 by omega]

/-- Every constant is loaded exactly, at 64 bits and, where it extends one of 32 bits, at 32 bits. The tests
of logical immediates accept the rotated runs of ones, with fields that decode back to the value. -/
theorem load_immediate_exact :
    (∀ (val : BitVec 64) (dst : Arm64Reg) (regs : Registers), dst ≠ XZR →
      Leaves regs (loadImmediate val dst true) dst val) ∧
    (∀ (val : BitVec 64) (dst : Arm64Reg) (regs : Registers), dst ≠ XZR → Extends32 val →
      Leaves regs (loadImmediate val dst false) dst ((val.setWidth 32).setWidth 64)) ∧
    (∀ val : BitVec 64, (isLogicalImmediate64 val).isSome ↔ IsRotatedRun val) ∧
    (∀ (val : BitVec 64) (fields : LogicalFields), isLogicalImmediate64 val = some fields →
      fields.Fit ∧ decodeBitMasks fields = some val) ∧
    (∀ val : BitVec 32, (isLogicalImmediate32 val).isSome ↔ IsRotatedRun val) ∧
    ∀ (val : BitVec 32) (fields : LogicalFields), isLogicalImmediate32 val = some fields →
      fields.Fit ∧ fields.n = 0 ∧ decodeBitMasks fields = some (val ++ val) := by
  refine ⟨fun val dst regs hdst => ?_, fun val dst regs hdst hext => ?_, isLogicalImmediate64_rotatedRun,
    fun val fields h => isLogicalImmediate64_decode h, isLogicalImmediate32_rotatedRun, fun val fields h => ?_⟩
  · exact loadImmediate_leaves hdst (Or.inl rfl) regs
  · exact loadImmediate_leaves hdst (Or.inr hext) regs
  · rw [append_eq_replicate32]
    exact isLogicalImmediate32_decode h

theorem load_immediate_exact_mask :
    Leaves (fun _ => 7) (loadImmediate 0xFFFFFFFF80000001 3 false) 3 0x80000001 ∧
      decodeBitMasks ⟨0, 7, 0x33⟩ = some 0x1e1e1e1e1e1e1e1e :=
  ⟨(load_immediate_exact).2.1 0xFFFFFFFF80000001 3 (fun _ => 7) (by decide) (by
      left
      decide),
    ((load_immediate_exact).2.2.2.1 0x1e1e1e1e1e1e1e1e ⟨0, 7, 0x33⟩ (by decide +kernel)).2⟩

end HashLink.Arm64
