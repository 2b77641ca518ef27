import HashLink.Jit.FlushMovs
import HashLink.Jit.RegisterValues
import HashLink.Opcode

/-!
`fold_immediates`: the right operand of a 32-bit operation becomes an immediate when it is a small constant. The values
that an instruction reads are the same on every path through the function.
-/

namespace HashLink.FoldImmediates

open RegisterValues
open Jit (EmitMode)

/-- The instructions that the pass looks at, and all others. -/
inductive Instr (ι : Type) where
  | loadConst (mode : EmitMode) (value : BitVec 64)
  | address (a : EReg)
  | binop (mode : EmitMode) (op : HlOp) (a b : EReg)
  | other (i : ι)

/-- The code of a function: the instruction of each value, and the phis of the blocks. -/
structure IrFunction (ι φ : Type) where
  instrs : List (Instr ι)
  values : List Nat
  phis : List φ

def valueOf (r : EReg) : Option Nat :=
  if 0 < r.toInt ∧ regKind r = RKind.rValue.code then some r.toNat else none

def mkConst (v : BitVec 32) : EReg := mkRegVal 0 RKind.rConst.code v

variable {ι φ : Type} (f : IrFunction ι φ)

def takesAddress (pos : Nat) : Instr ι → Bool
  | .address a => ((valueOf a).bind (f.values[·]?)) = some pos
  | _ => false

def addressTaken (pos : Nat) : Bool := f.instrs.any (takesAddress f pos)

def hasImmediate : HlOp → Bool
  | .oAdd | .oSub | .oMul | .oSDiv | .oSMod | .oShl | .oSShr | .oUShr | .oAnd | .oOr | .oXor => true
  | _ => false

def foldable (b : EReg) : Option (BitVec 32) := do
  let v ← valueOf b
  let pos ← f.values[v]?
  match f.instrs[pos]? with
  | some (.loadConst _ value) =>
    let c := value.setWidth 32
    if addressTaken f pos = false ∧ 0 ≤ c.toInt ∧ c.toInt < 2 ^ 20 then some c else none
  | _ => none

def foldInstr : Instr ι → Instr ι
  | .binop .i32 op a b =>
    .binop .i32 op a (if hasImmediate op then ((foldable f b).map mkConst).getD b else b)
  | e => e

def foldImmediates : IrFunction ι φ := { f with instrs := f.instrs.map (foldInstr f) }

/-- The values computed so far, and everything else. -/
structure State (σ : Type) where
  values : Nat → Option (BitVec 64)
  world : σ

/-- The operations, what operands other than values and constants stand for, and the other instructions. An operation of
32 bits sees the low half of its operands. -/
structure Meaning (ι σ : Type) where
  alu : HlOp → EmitMode → BitVec 64 → BitVec 64 → Option (BitVec 64)
  alu32 : HlOp → BitVec 32 → BitVec 32 → Option (BitVec 32)
  operand : State σ → EReg → Option (BitVec 64)
  exec : Nat → Instr ι → State σ → Option (State σ)

variable {σ : Type} (m : Meaning ι σ)

def Meaning.binop : EmitMode → HlOp → BitVec 64 → BitVec 64 → Option (BitVec 64)
  | .i32, op, x, y => (m.alu32 op (x.setWidth 32) (y.setWidth 32)).map (·.setWidth 64)
  | mode, op, x, y => m.alu op mode x y

def read (s : State σ) (r : EReg) : Option (BitVec 64) :=
  match valueOf r with
  | some v => s.values v
  | none => if regKind r = RKind.rConst.code then some ((regValue r).signExtend 64) else m.operand s r

/-- The value of the instruction at `i` becomes `x`. -/
def define (i : Nat) (x : BitVec 64) (s : State σ) : State σ :=
  { s with values := fun v => if f.values[v]? = some i then some x else s.values v }

def step (s : State σ) (i : Nat) : Option (State σ) :=
  match f.instrs[i]? with
  | none => none
  | some (.loadConst _ value) => some (define f i value s)
  | some (.binop mode op a b) => do
      let x ← read m s a
      let y ← read m s b
      return define f i (← m.binop mode op x y) s
  | some e => m.exec i e s

/-- The instructions at these positions, one after the other. There is no result when a value is read that no
instruction of the path has computed. -/
def run (path : List Nat) (s : State σ) : Option (State σ) := path.foldlM (step f m) s

/-- The other instructions change the values that are theirs, and those whose address is taken. -/
def Framed : Prop :=
  ∀ i e s s', f.instrs[i]? = some e → m.exec i e s = some s' →
    ∀ v pos, f.values[v]? = some pos → pos ≠ i → addressTaken f pos = false → s'.values v = s.values v

/-- A value whose instruction loads a constant, and whose address is not taken, is that constant once it is computed. -/
def ConstantsHold (s : State σ) : Prop :=
  ∀ v pos mode value, f.values[v]? = some pos → f.instrs[pos]? = some (.loadConst mode value) →
    addressTaken f pos = false → ∀ x ∈ s.values v, x = value

variable {f m} {s s' : State σ} {i : Nat}

theorem define_other {v pos : Nat} {x : BitVec 64} (hv : f.values[v]? = some pos) (hne : pos ≠ i) :
    (define f i x s).values v = s.values v := by
  refine if_neg fun h => hne ?_
  exact Option.some.inj (hv.symm.trans h)

theorem constantsHold_of (h : ConstantsHold f s)
    (hother : ∀ v pos, f.values[v]? = some pos → pos ≠ i → addressTaken f pos = false → s'.values v = s.values v)
    (hself : ∀ v mode value, f.values[v]? = some i → f.instrs[i]? = some (.loadConst mode value) →
      ∀ x ∈ s'.values v, x = value) : ConstantsHold f s' := by
  intro v pos mode value hv hinstr htaken x hx
  by_cases heq : pos = i
  · subst heq
    exact hself v mode value hv hinstr x hx
  · rw [hother v pos hv heq htaken] at hx
    exact h v pos mode value hv hinstr htaken x hx

theorem constantsHold_define (h : ConstantsHold f s) {x : BitVec 64}
    (hx : ∀ mode value, f.instrs[i]? = some (.loadConst mode value) → x = value) :
    ConstantsHold f (define f i x s) := by
  refine constantsHold_of h (fun v pos hv hne _ => define_other hv hne) fun v mode value hv hinstr y hy => ?_
  have hdefined : (define f i x s).values v = some x := if_pos hv
  rw [Option.mem_def.1 hy] at hdefined
  exact Option.some.inj hdefined ▸ hx mode value hinstr

theorem step_constants (hframed : Framed f m) (h : ConstantsHold f s) (hstep : step f m s i = some s') :
    ConstantsHold f s' := by
  unfold step at hstep
  split at hstep
  · cases hstep
  · next mode value hinstr =>
      cases hstep
      refine constantsHold_define h fun mode' value' h' => ?_
      cases hinstr.symm.trans h'
      rfl
  · next mode op a b hinstr =>
      obtain ⟨x, -, hrest⟩ := Option.bind_eq_some_iff.1 hstep
      obtain ⟨y, -, hrest⟩ := Option.bind_eq_some_iff.1 hrest
      obtain ⟨z, -, hz⟩ := Option.bind_eq_some_iff.1 hrest
      cases hz
      exact constantsHold_define h fun mode' value' h' => nomatch hinstr.symm.trans h'
  · next e hconst _ hinstr =>
      refine constantsHold_of h (hframed i e s s' hinstr hstep) fun v mode value _ h' => ?_
      exact absurd (Option.some.inj (hinstr.symm.trans h')) (hconst mode value)

theorem regValue_mkConst {c : BitVec 32} (hlow : 0 ≤ c.toInt) (hhigh : c.toInt < 2 ^ 20) :
    regValue (mkConst c) = c := by
  have hvalue := (regValue_iff 0 .rConst c.toInt).2 ⟨by omega, hhigh⟩
  rw [BitVec.ofInt_toInt] at hvalue
  exact BitVec.eq_of_toInt_eq hvalue

theorem read_mkConst (s : State σ) {c : BitVec 32} (hlow : 0 ≤ c.toInt) (hhigh : c.toInt < 2 ^ 20) :
    read m s (mkConst c) = some (c.signExtend 64) := by
  have hkind : regKind (mkConst c) = RKind.rConst.code := regKind_mkRegVal 0 .rConst c
  have hvalue : valueOf (mkConst c) = none := by
    refine if_neg fun h => ?_
    rw [hkind] at h
    exact absurd h.2 (by decide)
  rw [read, hvalue]
  simp only [hkind, if_true, regValue_mkConst hlow hhigh]

structure Folds (f : IrFunction ι φ) (b : EReg) (c : BitVec 32) : Prop where
  value : ∃ v pos mode value, valueOf b = some v ∧ f.values[v]? = some pos ∧
    f.instrs[pos]? = some (.loadConst mode value) ∧ addressTaken f pos = false ∧ c = value.setWidth 32
  low : 0 ≤ c.toInt
  high : c.toInt < 2 ^ 20

theorem foldable_some {b : EReg} {c : BitVec 32} (h : foldable f b = some c) : Folds f b c := by
  obtain ⟨v, hv, hrest⟩ := Option.bind_eq_some_iff.1 h
  obtain ⟨pos, hpos, hrest⟩ := Option.bind_eq_some_iff.1 hrest
  split at hrest
  · next mode value hinstr =>
      dsimp only at hrest
      split at hrest
      · next hcond =>
          cases hrest
          exact ⟨⟨v, pos, mode, value, hv, hpos, hinstr, hcond.1, rfl⟩, hcond.2.1, hcond.2.2⟩
      · cases hrest
  · cases hrest

theorem read_folded (h : ConstantsHold f s) {b : EReg} {y : BitVec 64} (hy : read m s b = some y) :
    ∃ y', read m s (((foldable f b).map mkConst).getD b) = some y' ∧ y'.setWidth 32 = y.setWidth 32 := by
  cases hfold : foldable f b with
  | none => exact ⟨y, hy, rfl⟩
  | some c =>
    obtain ⟨⟨v, pos, mode, value, hv, hpos, hinstr, htaken, rfl⟩, hlow, hhigh⟩ := foldable_some hfold
    have hread : s.values v = some y := by
      rw [read, hv] at hy
      exact hy
    have heq : y = value := h v pos mode value hpos hinstr htaken y hread
    refine ⟨_, read_mkConst s hlow hhigh, ?_⟩
    rw [heq]
    ext j hj
    have hlt : j < 64 := by omega
    simp [BitVec.getElem_signExtend, hj, hlt]

theorem foldImmediates_instr (f : IrFunction ι φ) (i : Nat) :
    (foldImmediates f).instrs[i]? = (f.instrs[i]?).map (foldInstr f) := List.getElem?_map ..

theorem foldInstr_binop (h : ConstantsHold f s) {mode : EmitMode} {op : HlOp} {a b : EReg} {y : BitVec 64}
    (hy : read m s b = some y) (x : BitVec 64) :
    ∃ b' y', foldInstr f (.binop mode op a b) = .binop mode op a b' ∧ read m s b' = some y' ∧
      m.binop mode op x y' = m.binop mode op x y := by
  cases mode with
  | i32 =>
    by_cases hop : hasImmediate op = true
    · obtain ⟨y', hread, hlow⟩ := read_folded h hy
      exact ⟨_, y', by rw [foldInstr, if_pos hop], hread, by rw [Meaning.binop, Meaning.binop, hlow]⟩
    · exact ⟨b, y, by rw [foldInstr, if_neg hop], hy, rfl⟩
  | _ => exact ⟨b, y, rfl, hy, rfl⟩

theorem step_fold (h : ConstantsHold f s) (hstep : step f m s i = some s') :
    step (foldImmediates f) m s i = some s' := by
  unfold step at hstep ⊢
  rw [foldImmediates_instr]
  cases hinstr : f.instrs[i]? with
  | none => rw [hinstr] at hstep; cases hstep
  | some e =>
    rw [hinstr] at hstep
    cases e with
    | loadConst mode value => exact hstep
    | address a => exact hstep
    | other j => exact hstep
    | binop mode op a b =>
      obtain ⟨x, hx, hrest⟩ := Option.bind_eq_some_iff.1 hstep
      obtain ⟨y, hy, hrest⟩ := Option.bind_eq_some_iff.1 hrest
      obtain ⟨b', y', hfold, hy', hsame⟩ := foldInstr_binop (f := f) (m := m) h hy x
      rw [← hsame] at hrest
      rw [Option.map_some, hfold]
      show (read m s a).bind _ = _
      rw [hx]
      show (read m s b').bind _ = _
      rw [hy']
      exact hrest

theorem run_fold (hframed : Framed f m) (path : List Nat) (s s' : State σ) (h : ConstantsHold f s)
    (hrun : run f m path s = some s') : run (foldImmediates f) m path s = some s' := by
  induction path generalizing s with
  | nil => exact hrun
  | cons i path ih =>
    obtain ⟨s₁, hstep, hrest⟩ := Option.bind_eq_some_iff.1 hrun
    show (step (foldImmediates f) m s i).bind _ = _
    rw [step_fold h hstep]
    exact ih s₁ (step_constants hframed h hstep) hrest

/-- On every path from the start of a function the folded code computes the same values and does the same to everything
else. The phis stay as they are, and so do all instructions but the operations whose operand is a constant that can be
folded: that of a value whose address is not taken. -/
theorem fold_immediates_preserves (f : IrFunction ι φ) (m : Meaning ι σ) (hframed : Framed f m) :
    (∀ path s s', (∀ v, s.values v = none) → run f m path s = some s' →
      run (foldImmediates f) m path s = some s') ∧
    (foldImmediates f).phis = f.phis ∧ (foldImmediates f).values = f.values ∧
    ∀ (i : Nat) (e : Instr ι), f.instrs[i]? = some e → (foldImmediates f).instrs[i]? = some e ∨
      ∃ (op : HlOp) (a b : EReg) (c : BitVec 32), e = .binop .i32 op a b ∧ Folds f b c ∧
        (foldImmediates f).instrs[i]? = some (Instr.binop .i32 op a (mkConst c)) := by
  refine ⟨fun path s s' hnone hrun => run_fold hframed path s s' ?_ hrun, rfl, rfl, fun i e hinstr => ?_⟩
  · intro v pos mode value _ _ _ x hx
    rw [hnone v] at hx
    cases hx
  · rw [foldImmediates_instr, hinstr, Option.map_some]
    unfold foldInstr
    split
    · next op a b =>
        split
        · cases hfold : foldable f b with
          | none => exact .inl rfl
          | some c => exact .inr ⟨op, a, b, c, rfl, foldable_some hfold, rfl⟩
        · exact .inl rfl
    · exact .inl rfl

/-- A function that adds a constant to an argument. -/
def addFive : IrFunction Unit Unit where
  instrs := [.other (), .loadConst .i32 5, .binop .i32 .oAdd 1 2]
  values := [0, 0, 1, 2]
  phis := []

def addMeaning : Meaning Unit Unit where
  alu _ _ _ _ := none
  alu32 op x y := if op = .oAdd then some (x + y) else none
  operand _ _ := none
  exec i _ s := some (define addFive i 7 s)

theorem add_five_folded : ∃ s' : State Unit, run addFive addMeaning [0, 1, 2] ⟨fun _ => none, ()⟩ = some s' ∧
      run (foldImmediates addFive) addMeaning [0, 1, 2] ⟨fun _ => none, ()⟩ = some s' ∧ s'.values 3 = some 12 := by
  have hframed : Framed addFive addMeaning := by
    intro i e s s' _ hexec v pos hv hne _
    cases hexec
    exact define_other hv hne
  exact ⟨_, rfl, (fold_immediates_preserves addFive addMeaning hframed).1 _ _ _ (fun _ => rfl) rfl, rfl⟩

end HashLink.FoldImmediates
