import HashLink.Lib.ParallelMove

/-!
The moves of `jit_regs.c` that have to happen at once, such as those of the phis of a block or of the
arguments of a call. `flush_movs` puts them in an order, with an exchange where they form a cycle.
-/

namespace HashLink.Jit

open ParallelMove

/-- `ereg` of `jit.h`. -/
abbrev Ereg := BitVec 32

def regKind (r : Ereg) : Ereg := r &&& 0x70000000

def rReg : Ereg := 0x40000000

def isReg (r : Ereg) : Bool := regKind r == rReg

inductive EmitMode
  | none | ui8 | ui16 | i32 | ptr | f64 | f32 | void | noret
  deriving DecidableEq, Repr

def EmitMode.isFloat : EmitMode → Bool
  | .f64 | .f32 => true
  | _ => false

/-- What `flush_movs` emits. The moves and exchanges with `c` depend on the flags of the last comparison. -/
inductive MoveInstr
  | mov (to_ from_ : Ereg) (mode : EmitMode)
  | cmov (to_ from_ : Ereg) (mode : EmitMode)
  | xchg (a b : Ereg) (mode : EmitMode)
  | cxchg (a b : Ereg) (mode : EmitMode)
  deriving DecidableEq, Repr

section Run

variable {V : Type*}

/-- The effect of an instruction on the registers and the stack slots, when the condition is `taken`. -/
def MoveInstr.run (taken : Bool) (σ : Ereg → V) : MoveInstr → Ereg → V
  | .mov to_ from_ _ => Function.update σ to_ (σ from_)
  | .cmov to_ from_ _ => if taken then Function.update σ to_ (σ from_) else σ
  | .xchg a b _ => exchange σ a b
  | .cxchg a b _ => if taken then exchange σ a b else σ

def runMoves (taken : Bool) (code : List MoveInstr) (σ : Ereg → V) : Ereg → V :=
  code.foldl (MoveInstr.run taken) σ

theorem runMoves_append (taken : Bool) (code : List MoveInstr) (i : MoveInstr) (σ : Ereg → V) :
    runMoves taken (code ++ [i]) σ = i.run taken (runMoves taken code σ) := by
  rw [runMoves, List.foldl_append]
  rfl

end Run

/-- Three entries of `pack_movs`. -/
structure Mov where
  to_ : Ereg
  from_ : Ereg
  mode : EmitMode
  deriving DecidableEq, Repr

def Mov.pair (m : Mov) : Ereg × Ereg := (m.to_, m.from_)

/-- An `int_arr` of moves. The values from `cur` on are what earlier contents have left there. -/
structure MovArr where
  values : Nat → Mov
  cur : Nat

def MovArr.toList (a : MovArr) : List Mov := (List.range a.cur).map a.values

inductive FlushError
  /-- A removal outside the list. The size of its `memmove` is negative. -/
  | outside
  /-- Out of fuel. -/
  | fuel
  deriving DecidableEq, Repr

/-- `int_arr_remove_range(&movs,k,3)`. -/
def MovArr.removeRange (a : MovArr) (k : Nat) : Except FlushError MovArr :=
  if k < a.cur then
    .ok { values := fun i => if k ≤ i ∧ i + 1 < a.cur then a.values (i + 1) else a.values i,
          cur := a.cur - 1 }
  else .error .outside

/-- The first `size` entries read a register. -/
def MovArr.reads (a : MovArr) (size : Nat) (r : Ereg) : Bool :=
  (List.range size).any fun k2 => (a.values k2).from_ == r

structure FlushState where
  movs : MovArr
  code : List MoveInstr
  /-- `regstats_phi_moves`. -/
  phiMoves : Nat

section Flush

-- `counting` is `counting_phis && regstats_enabled`
variable (cond counting : Bool)

/-- `regs_emit`, and the statistics. -/
def FlushState.emit (s : FlushState) (i : MoveInstr) : FlushState :=
  { s with code := s.code ++ [i], phiMoves := if counting then s.phiMoves + 1 else s.phiMoves }

def movInstr (m : Mov) : MoveInstr :=
  if cond && isReg m.to_ then .cmov m.to_ m.from_ m.mode else .mov m.to_ m.from_ m.mode

def xchgInstr (m : Mov) : MoveInstr :=
  let mode := if m.mode.isFloat then .f64 else .ptr
  if cond && (isReg m.to_ || isReg m.from_) then .cxchg m.to_ m.from_ mode else .xchg m.to_ m.from_ mode

/-- The `for` loop from `k`, with `left` entries up to `size`. Gives `cycle`. -/
def scanMovs (size : Nat) : Nat → Nat → FlushState → Bool → Except FlushError (FlushState × Bool)
  | 0, _, s, cycle => .ok (s, cycle)
  | left + 1, k, s, cycle =>
    let m := s.movs.values k
    if m.to_ = m.from_ then
      -- the bound stays, and the entry that takes the place of this one is not looked at
      match s.movs.removeRange k with
      | .error e => .error e
      | .ok movs => scanMovs size left (k + 1) { s with movs := movs } false
    else if s.movs.reads size m.to_ then scanMovs size left (k + 1) s cycle
    else
      let s := s.emit counting (movInstr cond m)
      match s.movs.removeRange k with
      | .error e => .error e
      | .ok movs => .ok ({ s with movs := movs }, false)

/-- The registers of a move after an exchange. -/
def renameMov (to_ from_ : Ereg) (m : Mov) : Mov :=
  if m.from_ = to_ then { m with from_ := from_ }
  else if m.from_ = from_ then { m with from_ := to_ }
  else m

def MovArr.renameMovs (a : MovArr) (to_ from_ : Ereg) : MovArr :=
  { a with values := fun k => if k < a.cur then renameMov to_ from_ (a.values k) else a.values k }

/-- The exchange of the first move, when none is free. -/
def breakCycle (s : FlushState) : Except FlushError FlushState :=
  let m := s.movs.values 0
  let s := s.emit counting (xchgInstr cond m)
  match s.movs.removeRange 0 with
  | .error e => .error e
  | .ok movs => .ok { s with movs := movs.renameMovs m.to_ m.from_ }

def flushMovs : Nat → FlushState → Except FlushError FlushState
  | 0, _ => .error .fuel
  | fuel + 1, s =>
    if s.movs.cur = 0 then .ok s
    else
      match scanMovs cond counting s.movs.cur s.movs.cur 0 s true with
      | .error e => .error e
      | .ok (s, false) => flushMovs fuel s
      | .ok (s, true) =>
        match breakCycle cond counting s with
        | .error e => .error e
        | .ok s => flushMovs fuel s

end Flush

end HashLink.Jit
