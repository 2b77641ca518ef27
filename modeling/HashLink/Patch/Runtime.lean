import HashLink.Patch.Apply
import HashLink.Patch.Read

/-!
The runtime around a module that is patched while it runs. A patch names functions by their stable
ids; the runtime keeps a table of the slot each stable id has, and turns the names of a patch into
slots before the module applies it.
-/

namespace HashLink

inductive HlRuntimeStatus where
  | ok | badArgument | badFormat | stalePatch | incompatible | jitFailed | badFunction | exception
  | retireBlocked | migrationFailed | closuresHeld
  deriving DecidableEq, Repr

/-- An entry of `stable_ids` and the entry of `slots` beside it. -/
structure RuntimeIdentity where
  stableId : Int
  slot : Int
  deriving DecidableEq, Repr

/-- `hl_runtime_module`, without its lock. -/
structure HlRuntimeModule where
  module : HlModule
  moduleId : List UInt8
  identities : List RuntimeIdentity
  patchMessage : Option String

/-- `module_slot_capacity`. -/
def HlModule.slotCapacity (m : HlModule) : Nat :=
  max m.functionsCapacity m.functions.length + m.natives.length

/-- `hl_module_init_indexes`, for the functions and then the natives. -/
def hlModuleInitIndexes (m : HlModule) : HlModule :=
  let indexes := m.functions.zipIdx.foldl (fun indexes (f, i) => indexes.set f.findex.toNat (i : Int))
    (List.replicate m.slotCapacity (-1))
  let indexes := m.natives.zipIdx.foldl
    (fun indexes (findex, i) => indexes.set findex ((i + m.functions.length : Nat) : Int)) indexes
  { m with functionsIndexes := indexes }

def findFunction (m : HlModule) (slot : Int) : Option HlFunction :=
  m.functions.find? fun f => f.findex = slot

/-- `read_u32`, as the `int` it is stored in. -/
def readInt (bytes : List UInt8) (offset : Nat) : Int :=
  let byte k := BitVec.ofNat 32 (bytes.getD (offset + k) 0).toNat
  (byte 0 ||| byte 1 <<< 8 ||| byte 2 <<< 16 ||| byte 3 <<< 24).toInt

def checkIdentity (m : HlModule) (seen : List RuntimeIdentity) (entry : RuntimeIdentity) : Bool :=
  0 ≤ entry.stableId && (findFunction m entry.slot).isSome &&
    seen.all fun e => e.stableId ≠ entry.stableId && e.slot ≠ entry.slot

def readIdentities (m : HlModule) (identity : List UInt8) (offset : Nat) :
    Nat → List RuntimeIdentity → Option (List RuntimeIdentity)
  | 0, seen => some seen
  | count + 1, seen =>
    let entry : RuntimeIdentity :=
      ⟨readInt identity (offset + seen.length * 8), readInt identity (offset + 4 + seen.length * 8)⟩
    if checkIdentity m seen entry then readIdentities m identity offset count (seen ++ [entry])
    else none

def hlRuntimeV2InitStableId : Int := 0x1FFFFFFF

/-- `entries_offset`: version 3 has the slot of the initializer before the entries. -/
def entriesOffset (version : UInt8) : Nat := if version = 3 then 32 else 28

def declaredSlot (version : UInt8) (identity : List UInt8) : Int :=
  if version = 3 then readInt identity 28 else -1

def initializerSlot (version : UInt8) (slot : Int) (identities : List RuntimeIdentity) : Int :=
  if version = 2 then
    ((identities.findRev? fun e => e.stableId = hlRuntimeV2InitStableId).map (·.slot)).getD slot
  else slot

/-- The end of `hl_runtime_module_load`: the initializer is called by its stable id, and `call` is how
that ends. -/
def runInitializer (runtime : HlRuntimeModule) (slot : Int) (call : Int → HlRuntimeStatus) :
    Except HlRuntimeStatus HlRuntimeModule :=
  if slot < 0 then .ok runtime
  else match runtime.identities.findRev? fun e => e.slot = slot with
    | none => .error .badFormat
    | some e => if call e.stableId = .ok then .ok runtime else .error (call e.stableId)

/-- `hl_runtime_module_load`, once the bytecode is read and `m` is initialized. -/
def hlRuntimeModuleLoad (identity : List UInt8) (m : HlModule) (call : Int → HlRuntimeStatus) :
    Except HlRuntimeStatus HlRuntimeModule :=
  let version := identity.getD 3 0
  let revision := readInt identity 20
  let count := readInt identity 24
  let offset := entriesOffset version
  let slot := declaredSlot version identity
  if identity.length < 28 then .error .badArgument
  else if identity.take 3 ≠ [0x48, 0x4C, 0x49] ∨ version ≠ 2 ∧ version ≠ 3 then .error .badFormat
  else if revision < 0 ∨ count < 0 ∨ 0x100000 < count ∨ slot < -1 ∨
      (identity.length : Int) ≠ offset + count * 8 then .error .badFormat
  else match readIdentities m identity offset count.toNat [] with
    | none => .error .badFormat
    | some identities =>
      runInitializer
        { module := { m with revision }, moduleId := (identity.drop 4).take 16, identities
          patchMessage := none }
        (initializerSlot version slot identities) call

def resolveStableId (runtime : HlRuntimeModule) (stableId : Int) : Int :=
  ((runtime.identities.find? fun e => e.stableId = stableId).map (·.slot)).getD (-1)

/-- `resolve_patch_stable_id`: the functions of the module, then the ones the patch adds. -/
def resolvePatchStableId (runtime : HlRuntimeModule) (patch : HlPatch) (stableId : Int) : Int :=
  let slot := resolveStableId runtime stableId
  if slot < 0 then
    ((patch.addedFunctions.find? fun a => a.stableId = stableId).map (·.findex)).getD slot
  else slot

/-- The opcodes whose second operand is a function. -/
def HlOp.relocatable : HlOp → Bool
  | .oCall0 | .oCall1 | .oCall2 | .oCallN | .oStaticClosure | .oInstanceClosure => true
  | _ => false

theorem HlOp.accepts_set {op : HlOp} {operands : List Int} (target : Int)
    (h : op.accepts operands) : op.accepts (operands.set 1 target) := by
  have hthird : (operands.set 1 target).getD 2 0 = operands.getD 2 0 := by
    simp [List.getD_eq_getElem?_getD]
  unfold HlOp.accepts at h ⊢
  rw [List.length_set, hthird]
  exact h

def HlPatchInstruction.retarget (op : HlPatchInstruction) (target : Int) : HlPatchInstruction :=
  ⟨op.opcode, op.operands.set 1 target, HlOp.accepts_set target op.accepted⟩

def relocate (runtime : HlRuntimeModule) (patch : HlPatch) (f : HlPatchFunction)
    (relocation : Nat × Nat) : Option HlPatchFunction := do
  let (instruction, stableId) := relocation
  let target := resolvePatchStableId runtime patch stableId
  let op ← f.instructions[instruction]?
  if target < 0 ∨ !op.opcode.relocatable then none
  else some { f with instructions := f.instructions.set instruction (op.retarget target) }

def resolveFunction (runtime : HlRuntimeModule) (patch : HlPatch) (f : HlPatchFunction)
    (relocations : List (Nat × Nat)) : Option HlPatchFunction :=
  let slot := resolvePatchStableId runtime patch f.stableId
  if slot < 0 then none
  else relocations.foldlM (relocate runtime patch) { f with findex := slot }

def resolvePatch (runtime : HlRuntimeModule) (file : Hlp.HlPatchFile) : Option HlPatch := do
  let patch := file.patch
  let functions ← (patch.functions.zip file.relocations).mapM fun (f, relocations) =>
    resolveFunction runtime patch f relocations
  let migrations ← patch.migrations.mapM fun (migration : HlPatchMigration) =>
    let findex := resolvePatchStableId runtime patch migration.stableId
    if findex < 0 then none else some { migration with findex }
  let guards ← patch.guards.mapM fun (guard : HlPatchGuard) =>
    let findex := resolveStableId runtime guard.stableId
    if findex < 0 then none else some { guard with findex }
  return { patch with functions, migrations, guards }

/-- What a call depends on besides the runtime and the bytes: the memory of the reader and of the
two tables, the environment of the module's part, the message of the migrations that failed, whether
a refusal is the module's own text, and whether there is memory for a message. -/
structure RuntimeEnv where
  readMemory : Nat → Bool
  stableIdsMemory : Bool
  slotsMemory : Bool
  patch : PatchEnv
  migration : Option String
  refusal : Bool
  messageMemory : Bool

/-- Everything `hl_runtime_module_apply_hlp` checks before the module sees the patch. -/
def preparePatch (env : RuntimeEnv) (runtime : HlRuntimeModule) (file : Hlp.HlPatchFile) :
    Except HlRuntimeStatus HlPatch :=
  let added := file.patch.addedFunctions
  if runtime.moduleId ≠ file.moduleId then .error .incompatible
  else if added.any fun a => 0 ≤ resolveStableId runtime a.stableId then .error .incompatible
  else if !added.isEmpty && !(env.stableIdsMemory && env.slotsMemory) then .error .jitFailed
  else match resolvePatch runtime file with
    | none => .error .incompatible
    | some patch => .ok patch

def HlPatchAddedFunction.identity (a : HlPatchAddedFunction) : RuntimeIdentity :=
  ⟨a.stableId, a.findex⟩

def refusalStatus (env : RuntimeEnv) (error : String) : HlRuntimeStatus :=
  if error = "Stale patch revision" then .stalePatch
  else if env.refusal then .closuresHeld
  else .incompatible

/-- `hl_runtime_module_apply_hlp`: the runtime afterwards and the status, unless the reader does not
come back. -/
def hlRuntimeModuleApplyHlp (env : RuntimeEnv) (runtime : HlRuntimeModule) (bytes : List UInt8) :
    Option (HlRuntimeModule × HlRuntimeStatus) :=
  if bytes.isEmpty then some (runtime, .badArgument)
  else
    let runtime := { runtime with patchMessage := none }
    match Hlp.hlPatchRead bytes env.readMemory with
    | .crashed => none
    | .refused _ => some (runtime, .badFormat)
    | .accepted file =>
      match preparePatch env runtime file with
      | .error status => some (runtime, status)
      | .ok patch =>
        match hlModuleApplyPatch env.patch runtime.module patch with
        | (module, none) =>
          some ({ runtime with
              module
              identities := runtime.identities ++ patch.addedFunctions.map (·.identity)
              patchMessage := if env.messageMemory then env.migration else none },
            if env.migration.isSome then .migrationFailed else .ok)
        | (module, some error) =>
          some ({ runtime with
              module
              patchMessage := if env.messageMemory then some error else none },
            refusalStatus env error)

end HashLink
