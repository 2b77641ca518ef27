import HashLink.DynObj.Model

/-! Where arguments go. The register allocator decides it for the code it compiles, once for a function that is
entered and once for a call; `jit.c` decides it again for the calls that go between C and compiled code. The
registers of an ABI are numbered within their class, and stack words from the first one that an entered function
finds above its frame. -/

namespace HashLink.Marshal

/-- The calling conventions of compiled code. -/
inductive Abi where
  | sysv
  | win64
  | aarch64
  deriving DecidableEq, Repr

namespace Abi

/-- `cfg.regs.nargs`, which is `arg_reg_count`. -/
def regArgs : Abi → Nat
  | sysv => 6
  | win64 => 4
  | aarch64 => 8

/-- `cfg.floats.nargs`, which is `arg_fp_count`. -/
def fpArgs : Abi → Nat
  | sysv => 8
  | win64 => 4
  | aarch64 => 8

/-- `IS_WINCALL64`: the two classes of registers are counted together. -/
def winCall : Abi → Bool
  | win64 => true
  | _ => false

/-- The words that a caller leaves below the arguments on the stack. -/
def shadow : Abi → Nat
  | win64 => 4
  | _ => 0

end Abi

def maxArgs : Nat := 16

abbrev Word := BitVec 64

inductive Place where
  | reg (i : Nat)
  | fpReg (i : Nat)
  | stack (j : Nat)
  deriving DecidableEq, Repr

/-- `HF32` and `HF64`, whose modes are `IS_FLOAT`. -/
def isFloat (t : HlTypeKind) : Bool := t = .hF32 || t = .hF64

/-- The machine as a function finds it: the argument registers, and the words from `FP + 16` up. -/
structure Entry where
  ints : Nat → Word
  floats : Nat → Word
  stack : Nat → Word

def Entry.read (e : Entry) : Place → Word
  | .reg i => e.ints i
  | .fpReg i => e.floats i
  | .stack j => e.stack j

/-- `call_regs`: how many registers of each class are taken, or of both on Windows. -/
structure CallRegs where
  ints : Nat
  floats : Nat
  deriving DecidableEq

/-- `get_call_reg`, with the registers then taken. -/
def getCallReg (abi : Abi) (regs : CallRegs) (t : HlTypeKind) : Option Place × CallRegs :=
  if isFloat t then
    if abi.winCall then
      if regs.ints < abi.fpArgs then (some (.fpReg regs.ints), { regs with ints := regs.ints + 1 }) else (none, regs)
    else if regs.floats < abi.fpArgs then
      (some (.fpReg regs.floats), { regs with floats := regs.floats + 1 })
    else (none, regs)
  else if regs.ints < abi.regArgs then (some (.reg regs.ints), { regs with ints := regs.ints + 1 })
  else (none, regs)

/-- `regs_assign_regs` of the arguments of a function, where `count` is `args_count`: on Windows each argument has a
word on the stack, in a register or not. -/
def assignArgs (abi : Abi) : CallRegs → Nat → List HlTypeKind → List Place
  | _, _, [] => []
  | regs, count, t :: ts =>
    match getCallReg abi regs t with
    | (some r, regs) => r :: assignArgs abi regs (if abi.winCall then count + 1 else count) ts
    | (none, regs) => .stack count :: assignArgs abi regs (count + 1) ts

def loadPlaces (abi : Abi) (args : List HlTypeKind) : List Place := assignArgs abi ⟨0, 0⟩ 0 args

def callRegs (abi : Abi) : CallRegs → List HlTypeKind → List (Option Place)
  | _, [] => []
  | regs, t :: ts => (getCallReg abi regs t).1 :: callRegs abi (getCallReg abi regs t).2 ts

/-- `pack_movs`: the registers of a call get their values together. -/
def setReg (e : Entry) (r : Option Place) (w : Word) : Entry :=
  match r with
  | some (.reg i) => { e with ints := Function.update e.ints i w }
  | some (.fpReg i) => { e with floats := Function.update e.floats i w }
  | _ => e

def setRegs (e : Entry) : List (Option Place × Word) → Entry
  | [] => e
  | (r, w) :: l => setRegs (setReg e r w) l

def pushArgs (args : List (Option Place × Word)) : List Word :=
  args.foldr (fun a stack => if a.1.isNone then a.2 :: stack else stack) []

/-- A compiled call: what the function it enters finds, where `junk` has what the call does not set. -/
def compiledCall (abi : Abi) (junk : Entry) (args : List (HlTypeKind × Word)) : Entry :=
  let placed := (callRegs abi ⟨0, 0⟩ (args.map Prod.fst)).zip (args.map Prod.snd)
  { setRegs junk placed with
    stack := fun j =>
      if j < abi.shadow then junk.stack j else (pushArgs placed).getD (j - abi.shadow) (junk.stack j) }

/-- `get_next_reg`: a register of the class of the type, and the counts of both classes then. -/
def getNextReg (abi : Abi) (t : HlTypeKind) (rp fp : Nat) : Option Nat × Nat × Nat :=
  if isFloat t then
    if fp < abi.fpArgs then (some fp, if abi.winCall then rp + 1 else rp, fp + 1) else (none, rp, fp)
  else if rp < abi.regArgs then (some rp, rp + 1, if abi.winCall then fp + 1 else fp)
  else (none, rp, fp)

/-- What `callback_c2hl` takes from an argument: an `int` of a small type, which is also how it moves a float, a word
of a large one, and otherwise the pointer. -/
def argWord (t : HlTypeKind) (w : Word) : Word :=
  match t with
  | .hBool | .hUi8 | .hUi16 | .hI32 | .hF32 => (w.setWidth 32).signExtend 64
  | _ => w

structure VArgs where
  regs : List Word
  stack : List Word

def VArgs.empty : VArgs := ⟨List.replicate maxArgs 0, List.replicate maxArgs 0⟩

/-- The loop of `callback_c2hl`, with its count of stack arguments. -/
def packArgs (abi : Abi) : Nat → Nat → Nat → VArgs → List (HlTypeKind × Word) → VArgs × Nat
  | _, _, sp, v, [] => (v, sp)
  | rp, fp, sp, v, (t, w) :: args =>
    match getNextReg abi t rp fp with
    | (some r, rp, fp) =>
      packArgs abi rp fp sp
        { v with regs := v.regs.set (r + if isFloat t then abi.regArgs else 0) (argWord t w) } args
    | (none, rp, fp) => packArgs abi rp fp (sp + 1) { v with stack := v.stack.set sp (argWord t w) } args

/-- The `c2hl` stubs: the registers come from `vargs.regs`. On x86-64 as many stack words are pushed as the padded
count says; on AArch64 the last stack slot has the count. -/
def c2hlStub (abi : Abi) (junk : Entry) (v : VArgs) (nargs : Nat) : Entry where
  ints i := if i < abi.regArgs then v.regs.getD i 0 else junk.ints i
  floats i := if i < abi.fpArgs then v.regs.getD (i + abi.regArgs) 0 else junk.floats i
  stack j :=
    let count := if abi = .aarch64 then (v.stack.getD (maxArgs - 1) 0).toNat else nargs
    if abi.shadow ≤ j ∧ j < abi.shadow + count then v.stack.getD (j - abi.shadow) 0 else junk.stack j

/-- `callback_c2hl`: what the function it calls finds. -/
def callbackC2hl (abi : Abi) (junk : Entry) (args : List (HlTypeKind × Word)) : Except String Entry :=
  if maxArgs < args.length then .error "Too many arguments for dynamic call"
  else
    let (v, sp) := packArgs abi 0 0 0 .empty args
    let v := { v with stack := v.stack.set (maxArgs - 1) (BitVec.ofNat 64 sp) }
    .ok (c2hlStub abi junk v (if sp % 2 = 1 then sp + 1 else sp))

/-- A dynamic value: no value, an object that is its own, a box of a type, or a box of a copied structure. -/
inductive Dyn where
  | null
  | object (p : Word)
  | box (t : HlTypeKind) (v : Word)
  | copy (p : Word)
  deriving DecidableEq, Repr

/-- `hl_is_dynamic`. -/
def isDynamic : HlTypeKind → Bool
  | .hDyn | .hFun | .hObj | .hArray | .hVirtual | .hDynObj | .hEnum | .hNull => true
  | _ => false

/-- `hl_make_dyn` of the data in a word. -/
def hlMakeDyn (w : Word) (t : HlTypeKind) : Dyn :=
  match t with
  | .hVoid => .null
  | .hUi8 => .box t (w &&& 0xFF)
  | .hUi16 => .box t (w &&& 0xFFFF)
  | .hI32 | .hF32 => .box t (w &&& 0xFFFFFFFF)
  | .hI64 | .hGuid | .hF64 => .box t w
  | .hBool => .box t (if w &&& 0xFF = 0 then 0 else 1)
  | .hStruct => if w = 0 then .null else .copy w
  | .hBytes | .hType | .hRef | .hAbstract => if w = 0 then .null else .box t w
  | _ => .object w

/-- What the `hl2c` stubs give to their callback: the words of the registers, the integers first, and the words of
the stack arguments. -/
structure Spilled where
  regs : Nat → Word
  stackArgs : Nat → Word

def hl2cStub (abi : Abi) (e : Entry) : Spilled where
  regs i := if i < abi.regArgs then e.ints i else e.floats (i - abi.regArgs)
  stackArgs j := e.stack (abi.shadow + j)

/-- The loop of `callback_hl2c`. -/
def rebuildArgs (abi : Abi) (s : Spilled) : Nat → Nat → Nat → List HlTypeKind → List Dyn
  | _, _, _, [] => []
  | rp, fp, sp, t :: ts =>
    match getNextReg abi t rp fp with
    | (none, rp, fp) =>
      (if isDynamic t then .object (s.stackArgs sp) else hlMakeDyn (s.stackArgs sp) t) ::
        rebuildArgs abi s rp fp (sp + 1) ts
    | (some creg, rp, fp) =>
      (if isDynamic t then .object (s.regs creg)
        else if isFloat t then hlMakeDyn (s.regs (abi.regArgs + creg)) .hF64
        else hlMakeDyn (s.regs creg) t) ::
        rebuildArgs abi s rp fp sp ts

/-- `callback_hl2c`, up to the call of the wrapped function. The first register has the wrapper itself. -/
def callbackHl2c (abi : Abi) (args : List HlTypeKind) (e : Entry) : Except String (List Dyn) :=
  if maxArgs < args.length then .error "Too many arguments for wrapped call"
  else .ok (rebuildArgs abi (hl2cStub abi e) 1 (if abi.winCall then 1 else 0) 0 args)

def widen (x : BitVec 32) : Word :=
  let sign : Word := (x >>> 31).setWidth 64 <<< 63
  let exponent := (x >>> 23).toNat % 256
  let fraction := x.toNat % 2 ^ 23
  if exponent = 255 then
    -- an infinity, or a quiet NaN
    sign ||| BitVec.ofNat 64 (2047 * 2 ^ 52 + fraction * 2 ^ 29) |||
      if fraction = 0 then 0 else BitVec.ofNat 64 (2 ^ 51)
  else if exponent ≠ 0 then sign ||| BitVec.ofNat 64 ((exponent + 896) * 2 ^ 52 + fraction * 2 ^ 29)
  else if fraction = 0 then sign
  else
    let top := Nat.log2 fraction
    sign ||| BitVec.ofNat 64 ((top + 874) * 2 ^ 52 + (fraction - 2 ^ top) * 2 ^ (52 - top))

inductive Value where
  | int (n : Int)
  | float (bits : Word)
  | pointer (p : Word)
  | struct (p : Word)
  deriving DecidableEq, Repr

/-- The value that a register or a stack word holds for a type. What is above the size of the type does not count. -/
def valueOf (t : HlTypeKind) (w : Word) : Value :=
  match t with
  | .hVoid => .pointer 0
  | .hUi8 => .int (w &&& 0xFF).toNat
  | .hUi16 => .int (w &&& 0xFFFF).toNat
  | .hBool => .int (if w &&& 0xFF = 0 then 0 else 1)
  | .hI32 => .int (w.setWidth 32).toInt
  | .hI64 | .hGuid => .int w.toInt
  | .hF32 => .float (widen (w.setWidth 32))
  | .hF64 => .float w
  | .hStruct => if w = 0 then .pointer 0 else .struct w
  | _ => .pointer w

def Dyn.value : Dyn → Value
  | .null => .pointer 0
  | .object p => .pointer p
  | .box t v => valueOf t v
  | .copy p => .struct p

/-- What the casts of a result need: the heap and the arithmetic of floats. -/
structure CastEnv where
  casti : Dyn → HlTypeKind → Option (BitVec 32)
  casti64 : Dyn → Option Word
  castp : Dyn → HlTypeKind → Option Word
  objectCastd : Word → Option Word
  objectCastf : Word → Option (BitVec 32)
  ofInt : Int → Word
  ofIntf : Int → BitVec 32
  narrow : Word → BitVec 32
  copyStruct : Word → HlTypeKind → Word

variable (env : CastEnv)

def hlDynCastd : Dyn → Option Word
  | .null => some 0
  | .box .hF32 v => some (widen (v.setWidth 32))
  | .box .hF64 v => some v
  | .box t v =>
    if t ∈ [HlTypeKind.hUi8, .hUi16, .hI32, .hI64, .hBool] then
      match valueOf t v with
      | .int n => some (env.ofInt n)
      | _ => none
    else none
  | .object p => env.objectCastd p
  | .copy _ => none

def hlDynCastf : Dyn → Option (BitVec 32)
  | .null => some 0
  | .box .hF32 v => some (v.setWidth 32)
  | .box .hF64 v => some (env.narrow v)
  | .box t v =>
    if t ∈ [HlTypeKind.hUi8, .hUi16, .hI32, .hI64, .hBool] then
      match valueOf t v with
      | .int n => some (env.ofIntf n)
      | _ => none
    else none
  | .object p => env.objectCastf p
  | .copy _ => none

/-- `hl_jit_wrapper_ptr`, after the call. -/
def hlJitWrapperPtr (ret : Dyn) (tret : HlTypeKind) : Option Word :=
  match tret with
  | .hVoid => some 0
  | .hUi8 | .hUi16 | .hI32 | .hBool => (env.casti ret tret).map (·.signExtend 64)
  | .hI64 | .hGuid => env.casti64 ret
  | .hStruct => (env.castp ret tret).map fun p => if p = 0 then 0 else env.copyStruct p tret
  | _ => env.castp ret tret

/-- `hl_jit_wrapper_d`, after the call. -/
def hlJitWrapperD (ret : Dyn) : Option Word := hlDynCastd env ret

def wrapperResult (ret : Dyn) (tret : HlTypeKind) : Option Word :=
  if isFloat tret then hlJitWrapperD env ret else hlJitWrapperPtr env ret tret

/-- The result register holds the cast result in the way that compiled code reads a value of the type. -/
def HoldsResult (ret : Dyn) (tret : HlTypeKind) (r : Word) : Prop :=
  match tret with
  | .hVoid => True
  | .hF32 => some (r.setWidth 32) = hlDynCastf env ret
  | .hF64 => some r = hlDynCastd env ret
  | .hUi8 | .hUi16 | .hI32 | .hBool => some (r.setWidth 32) = env.casti ret tret
  | .hI64 | .hGuid => some r = env.casti64 ret
  | .hStruct => (env.castp ret tret).map (fun p => if p = 0 then 0 else env.copyStruct p tret) = some r
  | _ => some r = env.castp ret tret

end HashLink.Marshal
