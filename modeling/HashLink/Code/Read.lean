import HashLink.Lib.Sticky
import HashLink.Module
import HashLink.Opcode

/-!
The reading primitives of `code.c`. A reader walks over a buffer with a cursor; an error is noted in
the reader and reading goes on, with zeroes, until the caller asks. The cursor and the lengths are
32-bit integers. The reader also carries a log of the buffer accesses it makes and of the lengths it
adds to the cursor to check one.

`hl_code_read`: the tables of a bytecode file, in the order they stand in it. A reference to a type
or a string is its index. Memory can always be had; the strings of a type are converted on first
use, which fails when there are none.
-/

namespace HashLink.Code

open Sticky

abbrev Bytes := Int → UInt8

/-- The addition of 32-bit signed integers. -/
def addInt (a b : Int) : Int := Int.bmod (a + b) (2 ^ 32)

/-- `len` bytes from `pos` on, of a buffer of `size` bytes. -/
structure HlAccess where
  pos : Int
  len : Int
  size : Int
  deriving DecidableEq, Repr

/-- `hl_reader`, with what freshly allocated memory holds. -/
structure HlReader where
  b : Bytes
  size : Int
  pos : Int
  error : Option String
  fresh : Bytes
  accesses : List HlAccess
  advances : List HlAccess

/-- How reading ends without a module: an error is reported, or the process dies of a null
pointer. -/
inductive HlStop where
  | rejected (error : String)
  | crashed
  deriving DecidableEq, Repr

abbrev ReadM := EStateM HlStop HlReader

/-- `ERROR`: the first error is kept. -/
def hlError (message : String) : ReadM Unit :=
  modify fun r => { r with error := some (r.error.getD message) }

/-- `CHK_ERROR`, as `hl_code_read` has it. -/
def chkError : ReadM Unit := do
  match (← get).error with
  | some e => throw (.rejected e)
  | none => pure ()

/-- `EXIT`. -/
def hlExit {α : Type} (message : String) : ReadM α := do
  throw (.rejected ((← get).error.getD message))

/-- The reader after an access of `len` bytes at the cursor. -/
def HlReader.access (r : HlReader) (len : Int) : HlReader :=
  { r with pos := addInt r.pos len, accesses := ⟨r.pos, len, r.size⟩ :: r.accesses }

/-- The reader that has added `len` to its cursor to see whether there are as many bytes. -/
def HlReader.advance (r : HlReader) (len : Int) : HlReader :=
  { r with advances := ⟨r.pos, len, r.size⟩ :: r.advances }

def hlReadB : ReadM UInt8 := do
  let r ← get
  if r.size ≤ r.pos then
    hlError "No more data"
    return 0
  else
    set (r.access 1)
    return r.b r.pos

/-- `hl_read_bytes`: the destination, which stays as it was when there is not enough data. -/
def hlReadBytes (data : Bytes) (size : Int) : ReadM Bytes := do
  if size < 0 then
    hlError "Invalid size"
    return data
  else
    modify (·.advance size)
    let r ← get
    if r.size < addInt r.pos size then
      hlError "No more data"
      return data
    else
      set (r.access size)
      return fun i => if 0 ≤ i ∧ i < size then r.b (r.pos + i) else data i

/-- `hl_read_double`, as its bytes. -/
def hlReadDouble : ReadM (List UInt8) := do
  let d ← hlReadBytes (fun _ => 0) 8
  return (List.range 8).map fun i => d i

def hlReadI32 : ReadM Int := do
  modify (·.advance 4)
  let r ← get
  if r.size < addInt r.pos 4 then
    hlError "No more data"
    return 0
  else
    set (r.access 4)
    let byte (i : Int) := (r.b (r.pos + i)).toNat
    return Int.bmod ((byte 0 ||| byte 1 <<< 8 ||| byte 2 <<< 16 ||| byte 3 <<< 24 : Nat) : Int) (2 ^ 32)

def indexSign (b : Nat) (v : Nat) : Int := if b &&& 0x20 = 0 then v else -v

def hlReadIndex : ReadM Int := do
  let b := (← hlReadB).toNat
  if b &&& 0x80 = 0 then return (b &&& 0x7F : Nat)
  else if b &&& 0x40 = 0 then
    let c := (← hlReadB).toNat
    return indexSign b (c ||| (b &&& 31) <<< 8)
  else
    let c := (← hlReadB).toNat
    let d := (← hlReadB).toNat
    let e := (← hlReadB).toNat
    return indexSign b ((b &&& 31) <<< 24 ||| c <<< 16 ||| d <<< 8 ||| e)

def hlReadUindex : ReadM Nat := do
  let i ← hlReadIndex
  if i < 0 then
    hlError "Negative index"
    return 0
  else return i.toNat

section

variable {r r' : HlReader}

theorem indexSign_bounds {b v : Nat} (h : v < 2 ^ 29) :
    -(2 : Int) ^ 29 < indexSign b v ∧ indexSign b v < 2 ^ 29 := by
  unfold indexSign
  split <;> omega

theorem shifted_lt {x n k : Nat} (h : x < 2 ^ n) : x <<< k < 2 ^ (n + k) := by
  rw [Nat.shiftLeft_eq, Nat.pow_add]
  exact Nat.mul_lt_mul_of_pos_right h (Nat.two_pow_pos k)

theorem byte_lt_of_le (b : UInt8) {n : Nat} (h : 8 ≤ n) : b.toNat < 2 ^ n :=
  Nat.lt_of_lt_of_le b.toNat_lt (Nat.pow_le_pow_right (by decide) h)

theorem and_31_lt (b : Nat) : b &&& 31 < 2 ^ 5 :=
  Nat.and_lt_two_pow b (by decide)

theorem hlReadIndex_bounds : Yields (fun _ => True) hlReadIndex fun i =>
    -(2 : Int) ^ 29 < i ∧ i < 2 ^ 29 := by
  have hbyte : Yields (fun _ => True) hlReadB fun _ => True := fun _ _ _ _ _ => ⟨trivial, trivial⟩
  refine yields_bind hbyte fun b => yields_ite (fun _ => yields_pure fun _ => ?_) fun _ => ?_
  · have hsmall : b.toNat &&& 0x7F < 2 ^ 7 := Nat.and_lt_two_pow _ (by decide)
    omega
  refine yields_ite (fun _ => ?_) fun _ => ?_
  · refine yields_bind hbyte fun c => yields_pure fun _ _ => indexSign_bounds ?_
    exact Nat.or_lt_two_pow (byte_lt_of_le c (by decide)) (Nat.lt_trans (shifted_lt (and_31_lt _)) (by decide))
  · refine yields_bind hbyte fun c => yields_bind hbyte fun d => yields_bind hbyte fun e =>
      yields_pure fun _ _ _ _ => indexSign_bounds ?_
    refine Nat.or_lt_two_pow (Nat.or_lt_two_pow (Nat.or_lt_two_pow ?_ ?_) ?_) (byte_lt_of_le e (by decide))
    · exact shifted_lt (and_31_lt _)
    · exact Nat.lt_trans (shifted_lt c.toNat_lt) (by decide)
    · exact Nat.lt_trans (shifted_lt d.toNat_lt) (by decide)

def HlReader.Clean (r : HlReader) : Prop := r.error = none

theorem hlError_clean {message : String} {good : Unit → Prop} :
    Yields HlReader.Clean (hlError message) good := by
  intro r u r' hrun hclean
  cases hrun
  simp [HlReader.Clean] at hclean

theorem yields_error {α : Type} (good : α → Prop) {message : String} {a : α} :
    Yields HlReader.Clean (do hlError message; return a) good := by
  have hdirty : Yields HlReader.Clean (hlError message) fun _ => False := hlError_clean
  exact yields_bind hdirty fun _ => yields_pure False.elim

theorem chkError_clean : Yields HlReader.Clean chkError fun _ => True := by
  intro r u r' hrun hclean
  unfold chkError at hrun
  obtain ⟨s, t, hget, hrest⟩ := bind_eq_ok.mp hrun
  cases hget
  cases herror : r.error with
  | none => exact ⟨herror, trivial⟩
  | some e =>
    simp only [herror] at hrest
    cases hrest

theorem hlExit_clean {α : Type} {good : α → Prop} (message : String) :
    Yields HlReader.Clean (hlExit message) good := by
  intro r a r' hrun
  cases hrun

theorem hlReadB_clean : Yields HlReader.Clean hlReadB fun _ => True := by
  refine yields_get_bind fun r b r' hrun hclean => ?_
  split at hrun
  · exact yields_error (fun _ => True) r b r' hrun hclean
  · cases hrun
    exact ⟨hclean, trivial⟩

theorem hlReadBytes_clean (data : Bytes) (size : Int) :
    Yields HlReader.Clean (hlReadBytes data size) fun _ => True := by
  refine yields_ite (fun _ => yields_error _) fun _ => ?_
  intro r d r' hrun hclean
  obtain ⟨u, r₁, hadvance, hrest⟩ := bind_eq_ok.mp hrun
  cases hadvance
  obtain ⟨r₂, r₃, hget, hrest⟩ := bind_eq_ok.mp hrest
  cases hget
  split at hrest
  · exact ⟨(yields_error (fun _ => True) _ d r' hrest hclean).1, trivial⟩
  · obtain ⟨u, r₄, hset, hreturn⟩ := bind_eq_ok.mp hrest
    cases hset
    obtain ⟨-, rfl⟩ := pure_eq_ok.mp hreturn
    exact ⟨hclean, trivial⟩

theorem hlReadDouble_clean : Yields HlReader.Clean hlReadDouble fun _ => True :=
  yields_bind (hlReadBytes_clean _ _) fun _ => yields_pure fun _ => trivial

theorem hlReadI32_clean : Yields HlReader.Clean hlReadI32 fun _ => True := by
  intro r d r' hrun hclean
  obtain ⟨u, r₁, hadvance, hrest⟩ := bind_eq_ok.mp hrun
  cases hadvance
  obtain ⟨r₂, r₃, hget, hrest⟩ := bind_eq_ok.mp hrest
  cases hget
  split at hrest
  · exact ⟨(yields_error (fun _ => True) _ d r' hrest hclean).1, trivial⟩
  · obtain ⟨u, r₄, hset, hreturn⟩ := bind_eq_ok.mp hrest
    cases hset
    obtain ⟨-, rfl⟩ := pure_eq_ok.mp hreturn
    exact ⟨hclean, trivial⟩

theorem hlReadIndex_clean : Yields HlReader.Clean hlReadIndex fun i =>
    -(2 : Int) ^ 29 < i ∧ i < 2 ^ 29 := by
  refine yields_with ?_ hlReadIndex_bounds
  refine yields_bind hlReadB_clean fun b => yields_ite (fun _ => yields_pure fun _ => trivial)
    fun _ => yields_ite (fun _ => ?_) fun _ => ?_
  · exact yields_bind hlReadB_clean fun c => yields_pure fun _ _ => trivial
  · exact yields_bind hlReadB_clean fun c => yields_bind hlReadB_clean fun d =>
      yields_bind hlReadB_clean fun e => yields_pure fun _ _ _ _ => trivial

theorem hlReadUindex_clean : Yields HlReader.Clean hlReadUindex fun i => i < 2 ^ 29 := by
  refine yields_bind hlReadIndex_clean fun i => yields_ite (fun _ => ?_) fun _ => ?_
  · exact yields_error _
  · refine yields_pure fun hi => ?_
    omega

end

structure HlHeader where
  version : Nat
  flags : Nat
  nints : Nat
  nfloats : Nat
  nstrings : Nat
  nbytes : Nat
  ntypes : Nat
  nglobals : Nat
  nnatives : Nat
  nfunctions : Nat
  nconstants : Nat
  entrypoint : Nat
  deriving Repr

def HlHeader.hasdebug (c : HlHeader) : Bool := c.flags &&& 1 ≠ 0

def hlGetType (c : HlHeader) : ReadM Nat := do
  let i ← hlReadIndex
  if i < 0 ∨ c.ntypes ≤ i then
    hlError "Invalid type index"
    return 0
  else return i.toNat

/-- `hl_read_string`: the index of a string, or the empty string of its own. -/
def hlReadString (c : HlHeader) : ReadM (Option Nat) := do
  let i ← hlReadIndex
  if i < 0 ∨ c.nstrings ≤ i then
    hlError "Invalid string index"
    return none
  else return some i.toNat

/-- The check of `hl_read_ustring`. -/
def ustringIndex (c : HlHeader) : ReadM Nat := do
  let i ← hlReadIndex
  if i < 0 ∨ c.nstrings ≤ i then
    hlError "Invalid string index"
    return 0
  else return i.toNat

/-- `hl_read_ustring`: without strings there is no table to look the conversion up in. -/
def hlReadUstring (c : HlHeader) : ReadM Nat := do
  let i ← ustringIndex c
  if c.nstrings = 0 then throw .crashed else return i

structure HlObjField where
  name : Nat
  t : Nat
  deriving DecidableEq, Repr

structure HlObjProto where
  name : Nat
  findex : Nat
  pindex : Int
  deriving DecidableEq, Repr

structure HlTypeObj where
  name : Nat
  super : Option Nat
  globalValue : Nat
  fields : List HlObjField
  protos : List HlObjProto
  bindings : List (Nat × Nat)
  deriving DecidableEq, Repr

structure HlEnumConstruct where
  name : Nat
  params : List Nat
  deriving DecidableEq, Repr

structure HlTypeEnum where
  name : Nat
  globalValue : Nat
  constructs : List HlEnumConstruct
  deriving DecidableEq, Repr

/-- The union of `hl_type`. -/
inductive HlTypeData where
  | none
  | fun_ (args : List Nat) (ret : Nat)
  | obj (obj : HlTypeObj)
  | virt (fields : List HlObjField)
  | absName (name : Nat)
  | tenum (tenum : HlTypeEnum)
  | tparam (t : Nat)
  deriving DecidableEq, Repr

structure HlType where
  kind : HlTypeKind
  data : HlTypeData
  deriving DecidableEq, Repr

/-- The kind a byte stands for; from `HLAST` on there is none. -/
def kindOf (b : UInt8) : Option HlTypeKind :=
  if b.toNat < 24 then some (HlTypeKind.ofNat b.toNat) else none

def hlReadField (c : HlHeader) : ReadM HlObjField := do
  let name ← hlReadUstring c
  let t ← hlGetType c
  return { name, t }

def hlReadProto (c : HlHeader) : ReadM HlObjProto := do
  let name ← hlReadUstring c
  let findex ← hlReadUindex
  let pindex ← hlReadIndex
  return { name, findex, pindex }

def hlReadBinding : ReadM (Nat × Nat) := do
  let field ← hlReadUindex
  let findex ← hlReadUindex
  return (field, findex)

def hlReadConstruct (c : HlHeader) : ReadM HlEnumConstruct := do
  let name ← hlReadUstring c
  let nparams ← hlReadUindex
  let params ← collect (hlGetType c) nparams
  return { name, params }

/-- The object case of `hl_read_type`. The super class is not read by `hl_get_type`. -/
def hlReadObj (c : HlHeader) : ReadM HlTypeObj := do
  let name ← hlReadUstring c
  let superIndex ← hlReadIndex
  let globalValue ← hlReadUindex
  let nfields ← hlReadUindex
  let nproto ← hlReadUindex
  let nbindings ← hlReadUindex
  let fields ← collect (hlReadField c) nfields
  let protos ← collect (hlReadProto c) nproto
  let bindings ← collect hlReadBinding nbindings
  let super := if superIndex < 0 then none else some superIndex.toNat
  return { name, super, globalValue, fields, protos, bindings }

/-- The switch of `hl_read_type`. -/
def hlReadTypeData (c : HlHeader) (kind : HlTypeKind) : ReadM HlTypeData := do
  match kind with
  | .hFun | .hMethod =>
    let nargs ← hlReadB
    let args ← collect (hlGetType c) nargs.toNat
    let ret ← hlGetType c
    return .fun_ args ret
  | .hObj | .hStruct => return .obj (← hlReadObj c)
  | .hVirtual =>
    let nfields ← hlReadUindex
    return .virt (← collect (hlReadField c) nfields)
  | .hAbstract => return .absName (← hlReadUstring c)
  | .hEnum =>
    let name ← hlReadUstring c
    let globalValue ← hlReadUindex
    let nconstructs ← hlReadUindex
    let constructs ← collect (hlReadConstruct c) nconstructs
    return .tenum { name, globalValue, constructs }
  | .hRef | .hNull | .hPacked => return .tparam (← hlGetType c)
  | _ => return .none

def hlReadType (c : HlHeader) : ReadM HlType := do
  match kindOf (← hlReadB) with
  | none =>
    hlError "Invalid type"
    return ⟨.hVoid, .none⟩
  | some kind => return ⟨kind, ← hlReadTypeData c kind⟩

/-- `hl_opcode`. An operand the opcode does not have is never looked at. -/
structure HlOpcode where
  op : HlOp
  p1 : Int := 0
  p2 : Int := 0
  p3 : Int := 0
  extra : List Int := []
  deriving DecidableEq, Repr

/-- The opcode a byte stands for; from `OLast` on there is none. -/
def opOf (b : UInt8) : Option HlOp :=
  if b.toNat < 104 then some (HlOp.ofNat b.toNat) else none

def hlReadCallArgs (op : HlOp) : ReadM HlOpcode := do
  let p1 ← hlReadIndex
  let p2 ← hlReadIndex
  let p3 ← hlReadB
  let extra ← collect hlReadIndex p3.toNat
  return { op, p1, p2, p3 := p3.toNat, extra }

/-- The jump table of `OSwitch`, with the end of the switch after it. -/
def hlReadSwitch : ReadM HlOpcode := do
  let p1 ← hlReadUindex
  let p2 ← hlReadUindex
  let extra ← collect hlReadUindex p2
  let p3 ← hlReadUindex
  return { op := .oSwitch, p1, p2, p3, extra := extra.map Int.ofNat }

def hlReadOperands (op : HlOp) : Nat → ReadM HlOpcode
  | 0 => return { op }
  | 1 => return { op, p1 := ← hlReadIndex }
  | 2 => do
      let p1 ← hlReadIndex
      let p2 ← hlReadIndex
      return { op, p1, p2 }
  | n + 3 => do
      let p1 ← hlReadIndex
      let p2 ← hlReadIndex
      let p3 ← hlReadIndex
      let extra ← collect hlReadIndex n
      return { op, p1, p2, p3, extra }

def hlReadOpcode : ReadM HlOpcode := do
  match opOf (← hlReadB) with
  | none =>
    hlError "Invalid opcode"
    return { op := .oNop }
  | some op =>
    match op.operands with
    | some n => hlReadOperands op n
    | none => if op = .oSwitch then hlReadSwitch else hlReadCallArgs op

structure HlFunction where
  type : Nat
  findex : Nat
  regs : List Nat
  ops : List HlOpcode
  debug : List (Int × Int) := []
  assigns : List (Nat × Int × Int) := []
  deriving DecidableEq, Repr

/-- `hl_read_function`, which does not read the body after an error. -/
def hlReadFunction (c : HlHeader) : ReadM HlFunction := do
  let type ← hlGetType c
  let findex ← hlReadUindex
  let nregs ← hlReadUindex
  let nops ← hlReadUindex
  let regs ← collect (hlGetType c) nregs
  if (← get).error.isSome then return { type, findex, regs, ops := [] }
  let ops ← collect hlReadOpcode nops
  return { type, findex, regs, ops }

def validTarget (f : HlFunction) (i : Nat) (offset : Int) : Bool :=
  let target := addInt (addInt i 1) offset
  0 ≤ target && target < f.ops.length

/-- The switch of `hl_validate_function_control_flow`. -/
def validateOpcode (f : HlFunction) (i : Nat) (op : HlOpcode) : Option String :=
  match op.op with
  | .oJAlways => if validTarget f i op.p1 then none else some "Invalid jump target"
  | .oJTrue | .oJFalse | .oJNull | .oJNotNull =>
    if validTarget f i op.p2 then none else some "Invalid conditional jump target"
  | .oJSLt | .oJSGte | .oJSGt | .oJSLte | .oJULt | .oJUGte | .oJNotLt | .oJNotGte | .oJEq
  | .oJNotEq => if validTarget f i op.p3 then none else some "Invalid comparison jump target"
  | .oTrap | .oCleanupTrap =>
    if op.p2 < 0 ∨ validTarget f i op.p2 = false then some "Invalid trap target" else none
  | _ => none

def hlValidateFunctionControlFlow (f : HlFunction) : Option String :=
  f.ops.zipIdx.findSome? fun (op, i) => validateOpcode f i op

/-- The loop of `hl_read_debug_infos`: entries until there is one for each of `n` more opcodes. -/
def debugLoop (ndebugfiles : Nat) :
    Nat → Int → Int → Int → List (Int × Int) → ReadM (List (Int × Int))
  | 0, _, _, _, debug => return debug
  | fuel + 1, n, curfile, curline, debug =>
    if n ≤ 0 then return debug
    else do
      let c := (← hlReadB).toNat
      if c &&& 1 ≠ 0 then
        let curfile := (c >>> 1) <<< 8 ||| (← hlReadB).toNat
        if ndebugfiles ≤ curfile then hlError "Invalid debug file"
        debugLoop ndebugfiles fuel n curfile curline debug
      else if c &&& 2 ≠ 0 then
        let delta := c >>> 6
        let count := (c >>> 2) &&& 15
        if n < count then hlError "Outside range"
        debugLoop ndebugfiles fuel (n - count) curfile (curline + delta)
          (debug ++ List.replicate count (curfile, curline))
      else if c &&& 4 ≠ 0 then
        let curline := curline + (c >>> 3 : Nat)
        debugLoop ndebugfiles fuel (n - 1) curfile curline (debug ++ [(curfile, curline)])
      else
        let b2 := (← hlReadB).toNat
        let b3 := (← hlReadB).toNat
        let curline : Int := (c >>> 3 ||| b2 <<< 5 ||| b3 <<< 13 : Nat)
        debugLoop ndebugfiles fuel (n - 1) curfile curline (debug ++ [(curfile, curline)])

/-- `hl_read_debug_infos`. A turn that gives no opcode an entry takes a byte, so there are as many
turns as opcodes and bytes at most. -/
def hlReadDebugInfos (ndebugfiles nops : Nat) : ReadM (List (Int × Int)) := do
  let r ← get
  debugLoop ndebugfiles (nops + (r.size - r.pos).toNat + 1) nops (-1) 0 []

def hlReadAssign (c : HlHeader) : ReadM (Nat × Int × Int) := do
  let reg ← hlReadUindex
  let start ← hlReadIndex
  if 6 ≤ c.version then
    let stop ← hlReadIndex
    return (reg, start - 1, stop - 1)
  else return (reg, start - 1, -1)

/-- The strings of a table: the memory they are in, and the offset and the length of each. -/
structure HlStrings where
  base : Bytes
  entries : List (Int × Nat)

/-- The loop of `hl_read_strings`. -/
def stringLoop (base : Bytes) (size : Int) : Nat → Int → ReadM (Option (List (Int × Nat)))
  | 0, _ => return some []
  | n + 1, sdata => do
      let sz ← hlReadUindex
      if size ≤ sdata + sz ∨ base (sdata + sz) ≠ 0 then
        hlError "Invalid string"
        return none
      else
        let rest ← stringLoop base size n (sdata + sz + 1)
        return rest.map ((sdata, sz) :: ·)

def hlReadStrings (nstrings : Nat) : ReadM (Option HlStrings) := do
  let size ← hlReadI32
  let base ← hlReadBytes (← get).fresh size
  let entries ← stringLoop base size nstrings 0
  return entries.map fun entries => { base, entries }

/-- The identities given to the functions, and those given so far. -/
structure HlIdentities where
  stableIds : List (Option Nat)
  names : List (Option (List UInt8))
  seen : List Nat := []

/-- One of the three strings of an identity: where it is, `none` when it runs out of the section. A
section has less than 2^29 bytes, so the addition does not wrap. -/
def hlSkipString : ReadM (Option (Int × Nat)) := do
  let length ← hlReadUindex
  let s ← get
  if s.size < s.pos + length then return none
  else
    set { s with pos := s.pos + length }
    return some (s.pos, length)

/-- One turn of `hl_read_function_identities`, in the reader of the section: the error it ends
with, or the identities after it. -/
def hlReadFunctionIdentity (functions : List HlFunction) (ids : HlIdentities) :
    ReadM (Except String HlIdentities) := do
  let stableId ← hlReadUindex
  let functionIndex ← hlReadUindex
  let target := functions.findIdx? (·.findex = functionIndex)
  let qualifiedName ← hlSkipString
  if qualifiedName.isNone then return .error "Invalid function identity string"
  let second ← hlSkipString
  if second.isNone then return .error "Invalid function identity string"
  let third ← hlSkipString
  if third.isNone then return .error "Invalid function identity string"
  let _ ← hlReadIndex
  let _ ← hlReadIndex
  let _ ← hlReadUindex
  let _ ← hlReadUindex
  if stableId ∈ ids.seen then return .error "Duplicate stable function identity"
  let s ← get
  match target with
  | none => return .error "Invalid function identity"
  | some target =>
    if s.error.isSome ∨ (ids.stableIds.getD target none).isSome then
      return .error "Invalid function identity"
    else
      let (start, length) := qualifiedName.getD (0, 0)
      let name := (List.range length).map fun i => s.b (start + i)
      return .ok { stableIds := ids.stableIds.set target (some stableId)
                   names := ids.names.set target (some name)
                   seen := stableId :: ids.seen }

/-- The loop of `hl_read_function_identities`. -/
def identityLoop (functions : List HlFunction) :
    Nat → HlIdentities → ReadM (Except String HlIdentities)
  | 0, ids => do
      let s ← get
      if s.pos ≠ s.size then return .error "Trailing function identity data" else return .ok ids
  | n + 1, ids => do
      match ← hlReadFunctionIdentity functions ids with
      | .error e => return .error e
      | .ok ids => identityLoop functions n ids

def HlReader.start (data : Bytes) (size : Int) (fresh : Bytes) : HlReader :=
  { b := data, size, pos := 0, error := none, fresh, accesses := [], advances := [] }

def HlReader.back (r s : HlReader) : HlReader :=
  { r with accesses := s.accesses ++ r.accesses, advances := s.advances ++ r.advances }

def withSection {α : Type} (data : Bytes) (size : Nat) (x : ReadM α) : ReadM α := fun r =>
  match x (.start data size r.fresh) with
  | .ok a s => .ok a (r.back s)
  | .error e s => .error e (r.back s)

def hlReadFunctionIdentities (functions : List HlFunction) (ids : HlIdentities) (data : Bytes)
    (size : Nat) : ReadM HlIdentities := do
  let result ← withSection data size do
    let count ← hlReadUindex
    identityLoop functions count { ids with seen := [] }
  match result with
  | .ok ids => return ids
  | .error e =>
    hlError e
    return ids

structure HlNative where
  lib : Option Nat
  name : Option Nat
  t : Nat
  findex : Nat
  deriving DecidableEq, Repr

structure HlConstant where
  global : Nat
  fields : List Nat
  deriving DecidableEq, Repr

structure HlCode where
  header : HlHeader
  ints : List Int
  floats : List (List UInt8)
  strings : Option HlStrings
  bytes : Bytes
  bytesSize : Int
  bytesPos : List Nat
  debugfiles : Option HlStrings
  types : List HlType
  globals : List Nat
  natives : List HlNative
  functions : List HlFunction
  constants : List HlConstant
  functionStableIds : List Nat
  functionNames : List (Option (List UInt8))

/-- A count that files have from version `first` on. -/
def hlReadCountSince (first version : Nat) : ReadM Nat :=
  if first ≤ version then hlReadUindex else return 0

def hlReadHeader : ReadM HlHeader := do
  if (← hlReadB) ≠ 'H'.toUInt8 then hlExit "Invalid HL bytecode header"
  if (← hlReadB) ≠ 'L'.toUInt8 then hlExit "Invalid HL bytecode header"
  if (← hlReadB) ≠ 'B'.toUInt8 then hlExit "Invalid HL bytecode header"
  let version := (← hlReadB).toNat
  if version ≤ 1 ∨ 7 < version then hlExit "Unsupported bytecode version"
  let flags ← hlReadUindex
  let nints ← hlReadUindex
  let nfloats ← hlReadUindex
  let nstrings ← hlReadUindex
  let nbytes ← hlReadCountSince 5 version
  let ntypes ← hlReadUindex
  let nglobals ← hlReadUindex
  let nnatives ← hlReadUindex
  let nfunctions ← hlReadUindex
  let nconstants ← hlReadCountSince 4 version
  let entrypoint ← hlReadUindex
  chkError
  return { version, flags, nints, nfloats, nstrings, nbytes, ntypes, nglobals, nnatives,
           nfunctions, nconstants, entrypoint }

def hlReadBytesTable (c : HlHeader) : ReadM (Bytes × Int × List Nat) := do
  if 5 ≤ c.version then
    let size ← hlReadI32
    let bytes ← hlReadBytes (← get).fresh size
    chkError
    let bytesPos ← collect hlReadUindex c.nbytes
    chkError
    return (bytes, size, bytesPos)
  else return (fun _ => 0, 0, [])

def hlReadDebugFiles (c : HlHeader) : ReadM (Nat × Option HlStrings) := do
  if c.hasdebug then
    let ndebugfiles ← hlReadUindex
    let debugfiles ← hlReadStrings ndebugfiles
    chkError
    return (ndebugfiles, debugfiles)
  else return (0, none)

def hlReadTypeEntry (c : HlHeader) : ReadM HlType := do
  let t ← hlReadType c
  chkError
  return t

def hlReadNative (c : HlHeader) : ReadM HlNative := do
  let lib ← hlReadString c
  let name ← hlReadString c
  let t ← hlGetType c
  let findex ← hlReadUindex
  return { lib, name, t, findex }

def hlReadFunctionDebug (c : HlHeader) (ndebugfiles : Nat) (f : HlFunction) : ReadM HlFunction := do
  if c.hasdebug then
    let debug ← hlReadDebugInfos ndebugfiles f.ops.length
    if 3 ≤ c.version then
      let nassigns ← hlReadUindex
      let assigns ← collect (hlReadAssign c) nassigns
      return { f with debug, assigns }
    else return { f with debug }
  else return f

/-- A function as `hl_code_read` reads it: with its control flow checked and its debug
information. -/
def hlReadFunctionEntry (c : HlHeader) (ndebugfiles : Nat) : ReadM HlFunction := do
  let f ← hlReadFunction c
  chkError
  match hlValidateFunctionControlFlow f with
  | some e => hlExit e
  | none => hlReadFunctionDebug c ndebugfiles f

def hlReadConstant : ReadM HlConstant := do
  let global ← hlReadUindex
  let nfields ← hlReadUindex
  let fields ← collect hlReadUindex nfields
  chkError
  return { global, fields }

def hlReadDebugSection (functions : List HlFunction) (ids : HlIdentities) :
    ReadM HlIdentities := do
  let kind ← hlReadUindex
  let version ← hlReadUindex
  let _ ← hlReadUindex
  let size ← hlReadUindex
  chkError
  if kind = 0 ∨ version = 0 then hlExit "Invalid debug section header"
  let data ← hlReadBytes (← get).fresh size
  chkError
  if kind = 1 ∧ version = 1 then
    let ids ← hlReadFunctionIdentities functions ids data size
    chkError
    return ids
  else return ids

def hlReadDebugSections (functions : List HlFunction) : Nat → HlIdentities → ReadM HlIdentities
  | 0, ids => return ids
  | n + 1, ids => do
      let ids ← hlReadDebugSection functions ids
      hlReadDebugSections functions n ids

def hlReadIdentities (c : HlHeader) (functions : List HlFunction) : ReadM HlIdentities := do
  let ids : HlIdentities :=
    { stableIds := functions.map fun _ => none, names := functions.map fun _ => none }
  if 7 ≤ c.version then
    let ndebugsections ← hlReadUindex
    chkError
    hlReadDebugSections functions ndebugsections ids
  else return ids

/-- The body of `hl_code_read`. -/
def hlCodeReadM : ReadM HlCode := do
  let c ← hlReadHeader
  let ints ← collect hlReadI32 c.nints
  chkError
  let floats ← collect hlReadDouble c.nfloats
  chkError
  let strings ← hlReadStrings c.nstrings
  chkError
  let (bytes, bytesSize, bytesPos) ← hlReadBytesTable c
  let (ndebugfiles, debugfiles) ← hlReadDebugFiles c
  let types ← collect (hlReadTypeEntry c) c.ntypes
  let globals ← collect (hlGetType c) c.nglobals
  chkError
  let natives ← collect (hlReadNative c) c.nnatives
  chkError
  let functions ← collect (hlReadFunctionEntry c ndebugfiles) c.nfunctions
  chkError
  let constants ← collect hlReadConstant c.nconstants
  let ids ← hlReadIdentities c functions
  return { header := c, ints, floats, strings, bytes, bytesSize, bytesPos, debugfiles, types,
           globals, natives, functions, constants
           functionStableIds := List.zipWith (fun id f => id.getD f.findex) ids.stableIds functions
           functionNames := ids.names }

/-- `hl_code_read`, with the reader it ends with. -/
def hlCodeRead (data : Bytes) (size : BitVec 32) (fresh : Bytes) :
    EStateM.Result HlStop HlReader HlCode :=
  hlCodeReadM (.start data size.toInt fresh)

def accepted (data : Bytes) (size : BitVec 32) (fresh : Bytes) : Option HlCode :=
  match hlCodeRead data size fresh with
  | .ok code _ => some code
  | .error _ _ => none

/-- The reader `hl_code_read` ends with, whether it accepts the buffer or not. -/
def finalReader (data : Bytes) (size : BitVec 32) (fresh : Bytes) : HlReader :=
  Transaction.finalState hlCodeReadM (.start data size.toInt fresh)

end HashLink.Code
