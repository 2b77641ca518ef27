import HashLink.Lib.Transaction
import HashLink.Patch.Traps

/-!
The checks of `hl_module_apply_patch` that only read the module. Each returns the text of the first
check that fails.

`hl_module_apply_patch`. The checks come first; then the patch is staged in the entries of the
module's tables that nothing uses yet, and in the reserved fields of its classes; then it is
compiled; and at last it is committed. Every failure on the way goes through one cleanup path.
-/

namespace HashLink

/-- The allocations applying a patch makes, by what they hold. -/
inductive PatchAlloc where
  | layout | traps | ints | floats | strings | ustring | typeList | type | objectFields | lookup
  | code | snapshots | snapshot | functions | body | debug | liveList | typeOwners
  deriving DecidableEq, Repr

/-- What the patch code asks of the rest of the process: the hashes of the module's tables, the
conversion of strings, whether an allocation succeeds, what the compiler makes of each function,
whether a stored closure still reaches a guarded function, the address of each new constant and
the runtime layout of an appended class. -/
structure PatchEnv where
  hashIntPrefix : HlModule → Nat → BitVec 32
  hashFloatPrefix : HlModule → Nat → BitVec 32
  hashStringPrefix : HlModule → Nat → BitVec 32
  hashTypePrefix : HlModule → Nat → BitVec 32
  hashGlobalPrefix : HlModule → Nat → BitVec 32
  ustring : List UInt8 → List UInt16
  hashGen : List UInt16 → Int
  memory : PatchAlloc → Nat → Bool
  jitAlloc : Bool
  jitFunction : Nat → Option Nat
  jitPatchCode : Option Nat
  checkPatchGuards : Option String
  constant : Nat → List UInt8
  getObjRt : List HlType → Nat → HlRuntimeObj

/-- Fails with `error` unless `ok`. -/
def require (ok : Bool) (error : String) : Except String Unit :=
  if ok then .ok () else .error error

theorem require_eq_ok {ok : Bool} {error : String} {u : Unit} :
    require ok error = .ok u ↔ ok = true := by
  cases ok <;> simp [require]

theorem except_bind_eq_ok {ε α β : Type} {x : Except ε α} {f : α → Except ε β} {r : β} :
    (x >>= f) = .ok r ↔ ∃ a, x = .ok a ∧ f a = .ok r := by
  cases x <;> simp [bind, Except.bind]

/-- Whether an index of the file is one of `count` entries. -/
def inTable (index : Int) (count : Nat) : Bool := 0 ≤ index && index < count

/-- Runs a check on every entry with its position. -/
def forEach {α : Type} (check : Nat → α → Except String Unit) : Nat → List α → Except String Unit
  | _, [] => .ok ()
  | i, a :: rest => do
      check i a
      forEach check (i + 1) rest

theorem forEach_ok {α : Type} {f : Nat → α → Except String Unit} {start : Nat} {l : List α}
    (h : forEach f start l = .ok ()) {i : Nat} {a : α} (hi : l[i]? = some a) :
    f (start + i) a = .ok () := by
  induction l generalizing start i with
  | nil => simp at hi
  | cons b rest ih =>
    obtain ⟨_, hhead, htail⟩ := (except_bind_eq_ok).mp h
    cases i with
    | zero =>
      simp only [List.getElem?_cons_zero, Option.some.injEq] at hi
      subst hi
      exact hhead
    | succ i =>
      rw [show start + (i + 1) = start + 1 + i by omega]
      exact ih htail (by simpa using hi)

/-! ### The layout a patch is compiled against -/

structure PatchLayout where
  functions : List HlFunction
  indexes : List Int

/-- `layout_function`. -/
def PatchLayout.function (layout : PatchLayout) (findex : Int) : Option HlFunction :=
  if findex < 0 ∨ layout.indexes.length ≤ findex then none
  else
    let index := layout.indexes.getD findex.toNat (-1)
    if index < 0 then none else layout.functions[index.toNat]?

def patchTypeKind (m : HlModule) (patch : HlPatch) (index : Nat) : HlTypeKind :=
  if index < patch.baseTypeCount then (m.typeAt index).kind
  else ((patch.types[index - patch.baseTypeCount]?).map HlPatchType.tag).getD .hVoid

def checkAddedFunction (m : HlModule) (patch : HlPatch) (i : Nat) (a : HlPatchAddedFunction) :
    Except String Unit := do
  require (a.findex = m.slotCount + i) "Added function is not in the next free slot"
  require (inTable a.type patch.totalTypes) "Invalid added function type"
  let kind := patchTypeKind m patch a.type.toNat
  require (kind = .hFun || kind = .hMethod) "Invalid added function type"
  require (patch.functions.countP (fun f => f.findex = a.findex) = 1) "Added function has no body"

/-- `stage_patch_layout`. Natives come after every function of the layout. -/
def stagePatchLayout (env : PatchEnv) (m : HlModule) (patch : HlPatch) :
    Except String PatchLayout := do
  let loaded := m.functions.length
  let added := patch.addedFunctions
  require (added.isEmpty || m.patchTargets.isSome) "Module cannot take added functions"
  require (loaded + added.length ≤ m.functionsCapacity) "Added function capacity exceeded"
  forEach (checkAddedFunction m patch) 0 added
  require (env.memory .layout 0) "Out of memory applying patch"
  let functions := m.functions ++ added.map fun a => ⟨a.findex, a.type.toNat⟩
  let slots := m.functionsIndexes.take m.slotCount ++
    (List.range added.length).map fun i => ((loaded + i : Nat) : Int)
  let indexes := m.natives.zipIdx.foldl
    (fun indexes (findex, i) => indexes.set findex ((functions.length + i : Nat) : Int)) slots
  return { functions, indexes }

def patchTypeIsClass (tag : HlTypeKind) : Bool := tag = .hObj || tag = .hStruct

def hlProtoTypedEntry : Int := -2

def validatePatchObjectType (m : HlModule) (patch : HlPatch) (index : Nat) (type : HlPatchType) :
    Except String Unit := do
  let o := type.obj
  let strings := patch.totalStrings
  require (o.fields.all fun f => inTable f.name strings && inTable f.type patch.totalTypes)
    "Invalid appended object field"
  if type.tag = .hVirtual then return
  require (inTable o.name strings) "Invalid appended object name"
  require (o.super < 0 || o.super < index && patchTypeKind m patch o.super.toNat = type.tag)
    "Invalid appended object base"
  require (-1 ≤ o.super) "Invalid appended object base"
  if o.global ≠ 0 then
    let g : Int := o.global - 1 - m.nglobals
    let slot := if g < 0 then none else patch.globals[g.toNat]?
    require (slot.any fun slot => slot.fields.isNone && slot.type = (index : Int))
      "Invalid appended object global"
  require (o.protos.all fun p => inTable p.name strings &&
      (-1 ≤ p.pindex || type.tag = .hObj && p.pindex = hlProtoTypedEntry))
    "Invalid appended object method"
  require (o.bindings.all fun b => 0 ≤ b.field) "Invalid appended object binding"

def validatePatchType (m : HlModule) (patch : HlPatch) (i : Nat) (type : HlPatchType) :
    Except String Unit := do
  let total := patch.totalTypes
  match type.tag with
  | .hFun =>
    require (type.arguments.all (inTable · total)) "Invalid appended function argument type"
    require (inTable type.result total) "Invalid appended function result type"
  | .hAbstract => require (inTable type.name patch.totalStrings) "Invalid appended abstract name"
  | .hRef | .hNull =>
    require (inTable type.parameter total) "Invalid appended parameterized type reference"
  | .hPacked =>
    require (inTable type.parameter total &&
      patchTypeKind m patch type.parameter.toNat = .hStruct) "Invalid appended packed type"
  | .hObj | .hStruct | .hVirtual =>
    validatePatchObjectType m patch (patch.baseTypeCount + i) type
  | .hEnum | .hMethod => .error "Unsupported HLP type"
  | _ => .ok ()

def validatePatchTypes (m : HlModule) (patch : HlPatch) : Except String Unit := do
  require (patch.totalTypes ≤ m.typesCapacity) "Type arena capacity exceeded"
  forEach (validatePatchType m patch) 0 patch.types

def validatePatchObjectMethods (patch : HlPatch) (layout : PatchLayout) : Except String Unit :=
  forEach (fun _ type =>
    if patchTypeIsClass type.tag then do
      require (type.obj.protos.all fun p => (layout.function p.findex).isSome)
        "Invalid appended object method"
      require (type.obj.bindings.all fun b => (layout.function b.findex).isSome)
        "Invalid appended object binding"
    else .ok ()) 0 patch.types

def validateGlobalField (m : HlModule) (patch : HlPatch) (field : HlObjField) (idx : Int) :
    Except String Unit :=
  match (m.typeAt field.t).kind with
  | .hI32 => require (idx < patch.totalInts) "Invalid patch global field"
  | .hF64 => require (idx < patch.totalFloats) "Invalid patch global field"
  | .hBytes => require (idx < patch.totalStrings) "Invalid patch global field"
  | .hBool => .ok ()
  | .hType => require (idx < patch.totalTypes) "Invalid patch global field"
  | _ => .error "Unsupported patch global field"

def validatePatchGlobal (m : HlModule) (patch : HlPatch) (used : Nat) (global : HlPatchGlobal) :
    Except String Nat := do
  match global.fields with
  | none =>
    require (inTable global.type patch.totalTypes && patch.baseTypeCount ≤ global.type &&
      patchTypeIsClass (patchTypeKind m patch global.type.toNat)) "Invalid patch global type"
    let used := used + (hlWSize - used % hlWSize) % hlWSize + hlWSize
    require (used ≤ m.globalsDataCapacity) "Global capacity exceeded"
    return used
  | some fields =>
    require (inTable global.type patch.baseTypeCount) "Invalid patch global type"
    let t := m.typeAt global.type.toNat
    match t.kind, t.obj? with
    | .hObj, some obj =>
      require (obj.super.isNone && obj.fields.length = fields.length)
        "Invalid patch global type"
      forEach (fun _ (field, idx) => validateGlobalField m patch field idx) 0 (obj.fields.zip fields)
      let used := used + hlPadSize used t.kind + t.kind.size
      require (used ≤ m.globalsDataCapacity) "Global capacity exceeded"
      return used
    | _, _ => .error "Invalid patch global type"

/-- `validate_patch_globals`, with the size of the globals once the patch commits. -/
def validatePatchGlobals (m : HlModule) (patch : HlPatch) : Except String Nat := do
  if patch.globals.isEmpty then return m.globalsSize
  require (m.globalsDataCapacity ≠ 0 && m.nglobals + patch.globals.length ≤ m.globals.length)
    "Global capacity exceeded"
  patch.globals.foldlM (validatePatchGlobal m patch) m.globalsSize

def objectFieldFits (t : HlType) : Bool :=
  t.kind ≠ .hVoid && t.kind ≠ .hPacked && t.kind.size ≤ hlWSize

def validatePatchObjectFields (m : HlModule) (patch : HlPatch) : Except String Unit :=
  forEach (fun _ f => do
    require (inTable f.type patch.baseTypeCount) "Invalid patch object field type"
    let t := m.typeAt f.type.toNat
    match t.kind, t.obj? with
    | .hObj, some obj =>
      require (0 ≤ f.field) "Invalid patch object field"
      match obj.fields[f.field.toNat]? with
      | none => .error "Invalid patch object field"
      | some field =>
        require (field.name.isEmpty && (m.typeAt field.t).kind = .hDyn)
          "Patch object field is not a reserved slot"
        require (inTable f.name patch.totalStrings && inTable f.fieldType patch.totalTypes)
          "Invalid patch object field"
        require (patch.baseTypeCount ≤ f.fieldType || objectFieldFits (m.typeAt f.fieldType.toNat))
          "Patch object field type does not fit a reserved slot"
    | _, _ => .error "Invalid patch object field") 0 patch.objectFields

def validReg (f : HlPatchFunction) (reg : Int) : Bool := inTable reg f.registers.length

def validCallTarget (m : HlModule) (layout : PatchLayout) (index : Int) : Bool :=
  inTable index layout.indexes.length && (m.functionsPtrs.getD index.toNat none).isSome

def validFunctionTarget (m : HlModule) (layout : PatchLayout) (index : Int) : Bool :=
  validCallTarget m layout index && (layout.function index).isSome

/-- `valid_closure_target`: a static closure may also wrap a native. -/
def validClosureTarget (m : HlModule) (layout : PatchLayout) (index : Int) : Bool :=
  validCallTarget m layout index && ((layout.function index).isSome ||
      inTable (layout.indexes.getD index.toNat (-1) - layout.functions.length) m.natives.length)

/-- Whether every operand from `k` on is a register. -/
def validRegsFrom (f : HlPatchFunction) (op : HlPatchInstruction) (k : Nat) : Bool :=
  (op.operands.drop k).all (validReg f)

/-- Whether a branch of instruction `i` by `offset` stays in the function. -/
def validBranch (f : HlPatchFunction) (i : Nat) (offset : Int) : Bool :=
  inTable (i + 1 + offset) f.instructions.length

def validArgumentCount (op : HlPatchInstruction) : Bool :=
  0 ≤ op.p 2 && op.p 2 = op.operands.length - 3

/-- The switch of `validate_function`. -/
def validateInstruction (m : HlModule) (patch : HlPatch) (layout : PatchLayout)
    (f : HlPatchFunction) (i : Nat) (op : HlPatchInstruction) : Except String Unit := do
  let reg k := validReg f (op.p k)
  match op.opcode with
  | .oLabel => .ok ()
  | .oMov => require (reg 0 && reg 1) "Invalid move operands"
  | .oInt => require (reg 0 && inTable (op.p 1) patch.totalInts) "Invalid Int operands"
  | .oFloat => require (reg 0 && inTable (op.p 1) patch.totalFloats) "Invalid Float operands"
  | .oString => require (reg 0 && inTable (op.p 1) patch.totalStrings) "Invalid String operands"
  | .oBool => require (reg 0 && (op.p 1 = 0 || op.p 1 = 1)) "Invalid Bool operands"
  | .oAdd | .oSub | .oMul | .oSDiv | .oSMod | .oShl | .oSShr | .oUShr | .oAnd | .oOr | .oXor =>
    require (reg 0 && reg 1 && reg 2) "Invalid arithmetic operands"
  | .oCall0 | .oCall1 | .oCall2 | .oCall3 | .oCall4 =>
    require (reg 0 && validCallTarget m layout (op.p 1)) "Invalid call target"
    require (validRegsFrom f op 2) "Invalid call argument"
  | .oCallN =>
    require (reg 0 && validCallTarget m layout (op.p 1) && validArgumentCount op)
      "Invalid variadic call"
    require (validRegsFrom f op 3) "Invalid call argument"
  | .oCallMethod | .oCallThis =>
    require (reg 0 && 0 ≤ op.p 1 && validArgumentCount op) "Invalid method call"
    require (validRegsFrom f op 3) "Invalid call argument"
  | .oCallClosure =>
    require (reg 0 && reg 1 && validArgumentCount op) "Invalid closure call"
    require (validRegsFrom f op 3) "Invalid call argument"
  | .oStaticClosure =>
    require (reg 0 && validClosureTarget m layout (op.p 1)) "Invalid static closure"
  | .oInstanceClosure =>
    require (reg 0 && validFunctionTarget m layout (op.p 1) && reg 2) "Invalid instance closure"
  | .oField => require (reg 0 && reg 1 && 0 ≤ op.p 2) "Invalid field read"
  | .oSetField => require (reg 0 && 0 ≤ op.p 1 && reg 2) "Invalid field write"
  | .oGetArray => require (reg 0 && reg 1 && reg 2) "Invalid array read"
  | .oSetArray => require (reg 0 && reg 1 && reg 2) "Invalid array write"
  | .oArraySize => require (reg 0 && reg 1) "Invalid array size"
  | .oNew => require (reg 0) "Invalid object allocation"
  | .oMakeEnum =>
    require (reg 0 && 0 ≤ op.p 1 && validArgumentCount op) "Invalid enum construction"
    require (validRegsFrom f op 3) "Invalid enum argument"
  | .oEnumAlloc | .oEnumIndex => require (reg 0 && reg 1) "Invalid enum operation"
  | .oEnumField => require (reg 0 && reg 1 && 0 ≤ op.p 2 && 0 ≤ op.p 3) "Invalid enum field"
  | .oType => require (reg 0 && inTable (op.p 1) patch.totalTypes) "Invalid type literal"
  | .oGetGlobal =>
    require (reg 0 && inTable (op.p 1) (m.nglobals + patch.globals.length))
      "Invalid global read"
  | .oSetGlobal =>
    require (inTable (op.p 0) (m.nglobals - m.npatchglobals) && reg 1) "Invalid global write"
  | .oNull | .oGetThis | .oSetThis | .oToDyn | .oToSFloat | .oToUFloat | .oToInt | .oSafeCast
  | .oUnsafeCast | .oToVirtual =>
    require (reg 0 && (op.operands.length ≤ 1 || reg 1)) "Invalid unary operation"
  | .oJTrue | .oJFalse | .oJNull | .oJNotNull =>
    require (reg 0 && validBranch f i (op.p 1)) "Invalid conditional branch"
  | .oJSLt | .oJSGte | .oJSGt | .oJSLte | .oJULt | .oJUGte | .oJNotLt | .oJNotGte | .oJEq
  | .oJNotEq => require (reg 0 && reg 1 && validBranch f i (op.p 2)) "Invalid comparison branch"
  | .oJAlways => require (validBranch f i (op.p 0)) "Invalid branch"
  | .oRet => require (reg 0) "Invalid return register"
  | .oThrow | .oRethrow => require (reg 0) "Invalid throw register"
  | .oNullCheck => require (reg 0) "Invalid null check register"
  | .oIncr | .oDecr => require (reg 0) "Invalid register operand"
  | .oNeg | .oNot | .oGetType | .oGetTID | .oRef | .oUnref | .oSetref | .oRefData =>
    require (reg 0 && reg 1) "Invalid register operands"
  | .oUDiv | .oUMod | .oGetI8 | .oGetI16 | .oGetMem | .oSetI8 | .oSetI16 | .oSetMem
  | .oRefOffset => require (reg 0 && reg 1 && reg 2) "Invalid register operands"
  | .oTrap | .oCleanupTrap =>
    require (reg 0 && 0 ≤ op.p 1 && validBranch f i (op.p 1)) "Invalid trap operands"
  | .oEndTrap | .oEndCleanupTrap => require (reg 0) "Invalid end-trap operands"
  | _ => .error "Unsupported patch opcode"

/-- The verdict of `validate_traps`, which always ends. -/
def trapsVerdict (memory : Bool) (f : HlPatchFunction) : Except String Unit :=
  let hends := Option.isSome_iff_exists.mpr (validateTraps_terminates memory f)
  ((validateTraps memory f).get hends).mapError fun e => e.message.getD ""

def validateFunction (env : PatchEnv) (m : HlModule) (patch : HlPatch) (layout : PatchLayout)
    (k : Nat) (f : HlPatchFunction) : Except String Unit := do
  match layout.function f.findex with
  | none => .error "Unknown stable function slot"
  | some live =>
    require (inTable f.type patch.totalTypes && (live.type : Int) = f.type)
      "Patch function signature changed"
    require (f.registers.all (inTable · patch.totalTypes)) "Invalid patch register type"
    forEach (validateInstruction m patch layout f) 0 f.instructions
    trapsVerdict (env.memory .traps k) f

def validateFunctions (env : PatchEnv) (m : HlModule) (patch : HlPatch) (layout : PatchLayout) :
    Except String Unit :=
  forEach (fun i f => do
    require ((patch.functions.take i).all fun g => g.findex ≠ f.findex)
      "Duplicate stable function slot"
    validateFunction env m patch layout i f) 0 patch.functions

open Transaction

/-- `patch_object_field_stage`: a staged field, what it replaced and the next lookup. -/
structure PatchObjectFieldStage where
  type : Nat
  field : Nat
  previous : HlObjField
  lookup : List HlFieldLookup

/-- The module with the locals of `hl_module_apply_patch` that its cleanup path looks at. -/
structure PatchState where
  module : HlModule
  stagedAdded : Bool
  stagedGlobals : Bool
  stagedFields : List PatchObjectFieldStage

abbrev PatchM := EStateM String PatchState

def modifyModule (f : HlModule → HlModule) : PatchM Unit :=
  modify fun s => { s with module := f s.module }

/-- Stops with `error` unless `ok`. -/
def demand (ok : Bool) (error : String) : PatchM Unit := check (require ok error)

/-- `inject_patch_failure`: a failure tests ask for. -/
def injectPatchFailure (stage : Nat) : PatchM Unit := do
  if (← get).module.patchFailureStage = stage then
    modifyModule fun m => { m with patchFailureStage := 0 }
    throw "Injected patch staging failure"

/-! ### The checks before anything is staged -/

/-- The checks up to the first write, in order. They return the layout and the new size of the
globals. -/
def checkPatch (env : PatchEnv) (m : HlModule) (patch : HlPatch) :
    Except String (PatchLayout × Nat) := do
  require m.patchable "Module is not patchable"
  require (patch.functions ≠ []) "Patch contains no functions"
  require (m.revision = patch.baseRevision && patch.baseRevision < patch.revision)
    "Stale patch revision"
  require (patch.baseIntCount = m.ints.length && patch.baseFloatCount = m.floats.length &&
      patch.baseStringCount = m.strings.length && patch.baseTypeCount = m.ntypes)
    "Patch symbol base does not match module"
  require (patch.intPrefixHash = env.hashIntPrefix m patch.baseIntCount &&
      patch.floatPrefixHash = env.hashFloatPrefix m patch.baseFloatCount &&
      patch.stringPrefixHash = env.hashStringPrefix m patch.baseStringCount &&
      patch.typePrefixHash = env.hashTypePrefix m patch.baseTypeCount)
    "Patch symbol prefix hash does not match module"
  require (patch.globals.isEmpty || patch.baseGlobalCount = m.nglobals &&
      patch.globalPrefixHash = env.hashGlobalPrefix m patch.baseGlobalCount)
    "Patch global base does not match module"
  validatePatchTypes m patch
  let globalsSize ← validatePatchGlobals m patch
  validatePatchObjectFields m patch
  let layout ← stagePatchLayout env m patch
  validatePatchObjectMethods patch layout
  validateFunctions env m patch layout
  require (env.memory .ints 0) "Out of memory applying patch"
  require (env.memory .floats 0) "Out of memory applying patch"
  require (patch.totalStrings = 0 || env.memory .strings 0) "Out of memory applying patch"
  forEach (fun i _ => require (env.memory .ustring i) "Out of memory applying patch") 0
    patch.strings
  return (layout, globalsSize)

def combinedUstrings (env : PatchEnv) (m : HlModule) (patch : HlPatch) : List (List UInt16) :=
  (m.strings ++ patch.strings).map env.ustring

def setType (patch : HlPatch) (i : Nat) (t : HlType) : PatchM Unit :=
  modifyModule fun m => { m with types := m.types.set (patch.baseTypeCount + i) t }

def nameAt (ustrings : List (List UInt16)) (index : Int) : List UInt16 :=
  ustrings.getD index.toNat []

def patchTypeFields (env : PatchEnv) (ustrings : List (List UInt16)) (o : HlPatchObjectType) :
    List HlObjField :=
  o.fields.map fun f =>
    ⟨nameAt ustrings f.name, env.hashGen (nameAt ustrings f.name), f.type.toNat⟩

/-- `stage_patch_object_type`, for a class or a struct. -/
def patchTypeObj (env : PatchEnv) (ustrings : List (List UInt16)) (o : HlPatchObjectType) :
    HlTypeObj where
  name := nameAt ustrings o.name
  super := if o.super < 0 then none else some o.super.toNat
  fields := patchTypeFields env ustrings o
  protos := o.protos.map fun p =>
    ⟨nameAt ustrings p.name, env.hashGen (nameAt ustrings p.name), p.findex, p.pindex⟩
  bindings := o.bindings.flatMap fun b => [b.field, b.findex]
  globalValue := none
  rt := ⟨[], [], 0⟩

/-- One turn of `stage_patch_types`. The entry gets its kind before its data is allocated. -/
def stagePatchType (env : PatchEnv) (patch : HlPatch) (ustrings : List (List UInt16)) (i : Nat)
    (src : HlPatchType) : PatchM Unit := do
  setType patch i ⟨src.tag, .null, false⟩
  match src.tag with
  | .hFun =>
    demand (env.memory .type i) "Out of memory staging function type"
    setType patch i ⟨src.tag, .fun_ (src.arguments.map Int.toNat) src.result.toNat, false⟩
  | .hAbstract => setType patch i ⟨src.tag, .absName (nameAt ustrings src.name), false⟩
  | .hRef | .hNull | .hPacked => setType patch i ⟨src.tag, .tparam src.parameter.toNat, false⟩
  | .hVirtual =>
    demand (env.memory .type i) "Out of memory staging virtual type"
    setType patch i ⟨src.tag, .virt (patchTypeFields env ustrings src.obj), false⟩
  | .hObj | .hStruct =>
    demand (env.memory .type i) "Out of memory staging object type"
    setType patch i ⟨src.tag, .obj (patchTypeObj env ustrings src.obj), false⟩
  | _ => pure ()

def stagePatchTypes (env : PatchEnv) (patch : HlPatch) (ustrings : List (List UInt16)) :
    PatchM Unit := do
  demand (patch.types.isEmpty || env.memory .typeList 0) "Out of memory staging patch types"
  eachIdx (stagePatchType env patch ustrings) 0 patch.types

def HlType.setField (t : HlType) (field : Nat) (value : HlObjField) : HlType :=
  match t.data with
  | .obj o => { t with data := .obj { o with fields := o.fields.set field value } }
  | _ => t

/-- Overwrites one field of the class at `type`. -/
def HlModule.setObjField (m : HlModule) (type field : Nat) (value : HlObjField) : HlModule :=
  { m with types := m.types.modify type (HlType.setField · field value) }

def unstagePatchObjectFields (staged : List PatchObjectFieldStage) (m : HlModule) : HlModule :=
  staged.foldr (fun stage m => m.setObjField stage.type stage.field stage.previous) m

def failObjectFields (error : String) : PatchM Unit := do
  modify fun s =>
    { s with module := unstagePatchObjectFields s.stagedFields s.module, stagedFields := [] }
  throw error

/-- The lookup a further field of `type` is added to: the last one staged for it, or its own. -/
def stagedLookup (staged : List PatchObjectFieldStage) (type : Nat) (obj : HlTypeObj) :
    List HlFieldLookup :=
  match staged.reverse.find? (fun stage => stage.type = type) with
  | some stage => stage.lookup
  | none => obj.rt.lookup

/-- One turn of `stage_patch_object_fields`. -/
def stagePatchObjectField (env : PatchEnv) (ustrings : List (List UInt16)) (i : Nat)
    (f : HlPatchObjectField) : PatchM Unit := do
  let s ← get
  let m := s.module
  let t := m.typeAt f.type.toNat
  let name := nameAt ustrings f.name
  let hash := env.hashGen name
  match t.obj?.bind fun obj => (obj.fields[f.field.toNat]?).map fun field => (obj, field) with
  | none => failObjectFields "Patch object field does not fit a reserved slot"
  | some (obj, field) =>
    let lookup := stagedLookup s.stagedFields f.type.toNat obj
    if !objectFieldFits (m.typeAt f.fieldType.toNat) || name.isEmpty then
      failObjectFields "Patch object field does not fit a reserved slot"
    else if (SortedTable.find HlFieldLookup.hashedName lookup hash).isSome then
      failObjectFields "Patch object field name already exists"
    else if !env.memory .lookup i then
      failObjectFields "Out of memory staging patch object fields"
    else
      let entry : HlFieldLookup := ⟨hash, f.fieldType.toNat,
        obj.rt.fieldsIndexes.getD (obj.rt.parentFields + f.field.toNat) 0⟩
      let stage : PatchObjectFieldStage := ⟨f.type.toNat, f.field.toNat, field,
        SortedTable.insert HlFieldLookup.hashedName lookup entry⟩
      set { s with
        module := m.setObjField f.type.toNat f.field.toNat ⟨name, hash, f.fieldType.toNat⟩
        stagedFields := s.stagedFields ++ [stage] }

def stagePatchObjectFields (env : PatchEnv) (patch : HlPatch) (ustrings : List (List UInt16)) :
    PatchM Unit := do
  demand (patch.objectFields.isEmpty || env.memory .objectFields 0)
    "Out of memory staging patch object fields"
  eachIdx (stagePatchObjectField env ustrings) 0 patch.objectFields

/-- `validate_patch_migrations`: a migration is a function from its class to `Void`. -/
def validatePatchMigrations (m : HlModule) (patch : HlPatch) (layout : PatchLayout) :
    Except String Unit :=
  forEach (fun _ (migration : HlPatchMigration) => do
    require (inTable migration.type patch.baseTypeCount &&
      (m.typeAt migration.type.toNat).kind = .hObj) "Invalid patch migration type"
    match (layout.function migration.findex).map fun f => m.typeAt f.type with
    | some ⟨.hFun, .fun_ [arg] ret, _⟩ =>
      require ((arg : Int) = migration.type && (m.typeAt ret).kind = .hVoid)
        "Invalid patch migration function"
    | _ => .error "Invalid patch migration function") 0 patch.migrations

/-- The allocation of the patch code with its functions and debug data; the files of the spans have
to be files of the module. -/
def buildPatchCode (env : PatchEnv) (m : HlModule) (patch : HlPatch) (layout : PatchLayout) :
    Except String Unit := do
  require (env.memory .code 0) "Out of memory applying patch"
  require (patch.sourceSnapshots.isEmpty || env.memory .snapshots 0)
    "Out of memory applying source snapshots"
  forEach (fun i length => require (length = 0 || env.memory .snapshot i)
    "Out of memory applying source snapshot") 0 patch.sourceSnapshots
  require (env.memory .functions 0) "Out of memory applying patch"
  forEach (fun i _ => require (env.memory .body i) "Out of memory applying patch") 0
    patch.functions
  forEach (fun i (f : HlPatchFunction) => do
    require (f.debugSpans.isEmpty || env.memory .debug i)
      "Out of memory applying patch debug metadata"
    require (f.debugSpans.all fun file => patch.debugFiles.getD file [] ∈ m.debugFiles)
      "Patch debug file is not present in module") 0 patch.functions
  forEach (fun _ (f : HlPatchFunction) =>
    require ((layout.function f.findex).isSome) "Invalid patch function slot") 0 patch.functions

def stageAddedFunctions (patch : HlPatch) (m : HlModule) : HlModule :=
  foldIdx (fun m i (a : HlPatchAddedFunction) =>
    { m with
      functionNames := m.functionNames.set (m.functions.length + i) (some a.name)
      functionsTypes := m.functionsTypes.set a.findex.toNat (some a.type.toNat) })
    0 patch.addedFunctions m

def unstageAddedFunctions (patch : HlPatch) (m : HlModule) : HlModule :=
  foldIdx (fun m i (a : HlPatchAddedFunction) =>
    { m with
      functionNames := m.functionNames.set (m.functions.length + i) none
      functionsTypes := m.functionsTypes.set a.findex.toNat none })
    0 patch.addedFunctions m

/-- One turn of `stage_patch_globals`, with the room used so far. -/
def stagePatchGlobal (state : HlModule × Nat) (i : Nat) (global : HlPatchGlobal) :
    HlModule × Nat :=
  let (m, used) := state
  let kind := (m.typeAt global.type.toNat).kind
  let offset := used + hlPadSize used kind
  ({ m with
      globals := m.globals.set (m.nglobals + i) (some global.type.toNat)
      globalsIndexes := m.globalsIndexes.set (m.nglobals + i) (offset : Int) },
    offset + kind.size)

def stagePatchGlobals (patch : HlPatch) (m : HlModule) : HlModule :=
  (foldIdx stagePatchGlobal 0 patch.globals (m, m.globalsSize)).1

/-- `memset` of a range of bytes. -/
def writeBytes (data : List UInt8) (offset : Nat) (bytes : List UInt8) : List UInt8 :=
  foldIdx (fun data i b => data.set (offset + i) b) 0 bytes data

/-- One turn of `unstage_patch_globals`. -/
def unstagePatchGlobal (m : HlModule) (i : Nat) : HlModule :=
  let offset := m.globalsIndexes.getD (m.nglobals + i) (-1)
  { m with
    globalsData :=
      if 0 ≤ offset then writeBytes m.globalsData offset.toNat (List.replicate hlWSize 0)
      else m.globalsData
    globals := m.globals.set (m.nglobals + i) none
    globalsIndexes := m.globalsIndexes.set (m.nglobals + i) (-1) }

def unstagePatchGlobals (patch : HlPatch) (m : HlModule) : HlModule :=
  foldIdx (fun m i _ => unstagePatchGlobal m i) 0 patch.globals m

/-- The value slot and the runtime layout of an appended class. -/
def linkPatchObjectType (env : PatchEnv) (patch : HlPatch) (m : HlModule) (i : Nat)
    (src : HlPatchType) : HlModule :=
  match src.tag, (m.typeAt (patch.baseTypeCount + i)).obj? with
  | .hObj, some obj | .hStruct, some obj =>
    let globalValue := if src.obj.global = 0 then none
      else some (m.globalsIndexes.getD (src.obj.global - 1) (-1))
    let rt := env.getObjRt m.types (patch.baseTypeCount + i)
    let t : HlType := ⟨src.tag, .obj { obj with globalValue, rt }, false⟩
    { m with types := m.types.set (patch.baseTypeCount + i) t }
  | _, _ => m

def linkPatchObjectTypes (env : PatchEnv) (patch : HlPatch) (m : HlModule) : HlModule :=
  foldIdx (linkPatchObjectType env patch) 0 patch.types m

def stageAdded (patch : HlPatch) : PatchM Unit :=
  modify fun s => { s with module := stageAddedFunctions patch s.module, stagedAdded := true }

def stageGlobals (patch : HlPatch) : PatchM Unit :=
  if patch.globals.isEmpty then pure ()
  else modify fun s =>
    { s with module := stagePatchGlobals patch s.module, stagedGlobals := true }

def checkGuards (env : PatchEnv) (patch : HlPatch) : PatchM Unit :=
  if patch.guards.isEmpty then pure ()
  else check (env.checkPatchGuards.elim (.ok ()) .error)

/-- Everything between the checks and the commit. It returns the code and where each function
starts in it. -/
def stagePatch (env : PatchEnv) (patch : HlPatch) (layout : PatchLayout) :
    PatchM (Nat × List Nat) := do
  let ustrings := combinedUstrings env (← get).module patch
  injectPatchFailure 1
  stagePatchTypes env patch ustrings
  stagePatchObjectFields env patch ustrings
  check (validatePatchMigrations (← get).module patch layout)
  injectPatchFailure 2
  check (buildPatchCode env (← get).module patch layout)
  stageAdded patch
  stageGlobals patch
  modifyModule (linkPatchObjectTypes env patch)
  demand env.jitAlloc "Could not allocate patch JIT"
  let offsets ← check (((List.range patch.functions.length).mapM env.jitFunction).elim
    (.error "Could not JIT patch function") .ok)
  let code ← check (env.jitPatchCode.elim (.error "Could not finalize patch JIT") .ok)
  demand (env.memory .liveList 0) "Out of memory listing patch code"
  injectPatchFailure 3
  demand (env.memory .typeOwners 0) "Out of memory publishing patch types"
  checkGuards env patch
  return (code, offsets)

/-- The last line of the cleanup: the range of types the patch names is cleared whenever it fits
the arena. -/
def clearPatchTypes (patch : HlPatch) (m : HlModule) : HlModule :=
  if patch.baseTypeCount ≤ m.typesCapacity ∧ patch.types.length ≤ m.typesCapacity - patch.baseTypeCount then
    { m with types := m.types.mapIdx fun i t =>
        if patch.baseTypeCount ≤ i ∧ i < patch.totalTypes then .zero else t }
  else m

def failPatch (patch : HlPatch) (s : PatchState) : HlModule :=
  let m := s.module
  let m := if s.stagedAdded then unstageAddedFunctions patch m else m
  let m := if s.stagedGlobals then unstagePatchGlobals patch m else m
  let m := unstagePatchObjectFields s.stagedFields m
  clearPatchTypes patch m

/-- `hl_module_redirect_slot`, without the rewriting of the original entry. -/
def redirectSlot (m : HlModule) (slot code : Nat) : HlModule :=
  match m.patchTargets with
  | none => { m with functionsPtrs := m.functionsPtrs.set slot (some code) }
  | some targets => { m with patchTargets := some (targets.set slot (some code)) }

/-- `commit_patch_object_fields`: the last lookup staged for a class becomes its lookup. -/
def commitPatchObjectFields (staged : List PatchObjectFieldStage) (m : HlModule) : HlModule :=
  staged.foldl (fun m stage =>
    { m with types := m.types.modify stage.type fun t =>
        match t.data with
        | .obj o => { t with data := .obj { o with rt := { o.rt with lookup := stage.lookup } } }
        | _ => t }) m

def publishAddedFunctions (patch : HlPatch) (m : HlModule) : HlModule :=
  patch.addedFunctions.foldl (fun m a =>
    let at_ := m.functions.length
    { m with
      functions := m.functions ++ [⟨a.findex, a.type.toNat⟩]
      npatchfunctions := m.npatchfunctions + 1
      functionStableIds := m.functionStableIds.set at_ a.stableId
      functionNames := m.functionNames.set at_ (some a.name)
      functionsIndexes := m.functionsIndexes.set a.findex.toNat (at_ : Int)
      functionsTypes := m.functionsTypes.set a.findex.toNat (some a.type.toNat) }) m

/-- The part of `hl_module_apply_patch` that cannot fail. -/
def commitPatch (env : PatchEnv) (patch : HlPatch) (globalsSize code : Nat) (offsets : List Nat)
    (s : PatchState) : HlModule :=
  let m := s.module
  let m := { m with
    types := m.types.mapIdx fun i (t : HlType) =>
      if m.ntypes ≤ i ∧ i < patch.totalTypes then { t with gcOwner := true } else t
    ntypes := patch.totalTypes }
  let m := foldIdx (fun m i (global : HlPatchGlobal) =>
    let offset := (m.globalsIndexes.getD (m.nglobals + i) 0).toNat
    if global.fields.isNone then m
    else { m with globalsData := writeBytes m.globalsData offset (env.constant i) })
    0 patch.globals m
  let m := { m with
    nglobals := m.nglobals + patch.globals.length
    npatchglobals := m.npatchglobals + patch.globals.length
    globalsSize }
  let m := commitPatchObjectFields s.stagedFields m
  let m := (patch.functions.zip offsets).foldl (fun m (f, offset) =>
    let m := redirectSlot m f.findex.toNat (code + offset)
    { m with patchOwners := m.patchOwners.set f.findex.toNat (some code) }) m
  let m := publishAddedFunctions patch m
  { m with
    ints := m.ints ++ patch.ints
    floats := m.floats ++ patch.floats
    strings := m.strings ++ patch.strings
    revision := patch.revision }

def PatchState.start (m : HlModule) : PatchState := ⟨m, false, false, []⟩

/-- `hl_module_apply_patch`: the module afterwards, and the error of a patch that was refused. -/
def hlModuleApplyPatch (env : PatchEnv) (m : HlModule) (patch : HlPatch) :
    HlModule × Option String :=
  match checkPatch env m patch with
  | .error e => (failPatch patch (.start m), some e)
  | .ok (layout, globalsSize) =>
    match stagePatch env patch layout (.start m) with
    | .error e s => (failPatch patch s, some e)
    | .ok (code, offsets) s => (commitPatch env patch globalsSize code offsets s, none)

end HashLink
