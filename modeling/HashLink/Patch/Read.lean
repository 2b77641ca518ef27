import HashLink.Code.Read
import HashLink.Patch.Data

/-!
`hl_patch_read`. A patch is a header and a list of sections, each with a tag and a length. Every
read is checked against the end of its section, and a failure anywhere ends in `hl_patch_free`, which
takes the counts of the patch for the lengths of its arrays. The reader keeps track of the counts
that are set while their array is not there yet.
-/

namespace HashLink.Hlp

open Sticky

/-- The arrays whose entries `hl_patch_free` walks. -/
inductive PatchArray where
  | strings | functions | instructions | types | debugFiles | sourceSnapshots | addedFunctions
  | globals | guards | globalNames
  deriving DecidableEq, Repr

inductive PatchFault where
  /-- The bytes run out. -/
  | truncated
  /-- A count that is negative or above 0x1000000, of an array or of something else. -/
  | count (array : Option PatchArray) (value : Int)
  /-- A count that the rest of the section has no room for. -/
  | tooMany (array : PatchArray) (count : Nat)
  /-- The bytes run out among the registers of a function with that many instructions. -/
  | registers (instructions : Nat)
  /-- There is no memory for an array, or for something else. -/
  | memory (array : Option PatchArray) (count : Nat)
  /-- A value that is refused for another reason. -/
  | refused
  deriving DecidableEq, Repr

/-- A section as it was read: where its header and its body start, the length it declares and where
reading it ended. -/
structure PatchSection where
  tag : Nat
  header : Nat
  start : Nat
  length : Nat
  stop : Nat
  deriving DecidableEq, Repr

/-- `patch_reader`, over the whole buffer. `memory` says which allocations succeed. `reads` and
`sections` record what was read; `owed` has the arrays with a positive count that are not there. -/
structure PatchReader where
  data : List UInt8
  memory : Nat → Bool
  pos : Nat
  limit : Nat
  owed : List PatchArray := []
  allocs : Nat := 0
  reads : List (Nat × Nat) := []
  sections : List PatchSection := []

/-- How reading stops: at an error, or with a write through a null pointer. -/
inductive PatchStop where
  | failed (error : String) (fault : PatchFault)
  | crashed
  deriving DecidableEq, Repr

abbrev PatchReadM := EStateM PatchStop PatchReader

def fail {α : Type} (error : String) : PatchReadM α := throw (.failed error .refused)

/-- Stops with `error` unless `ok`. -/
def demand (ok : Bool) (error : String) : PatchReadM Unit := if ok then pure () else fail error

def take (count : Nat) (fault : PatchFault := .truncated) : PatchReadM (List UInt8) := do
  let r ← get
  if r.limit < r.pos + count then throw (.failed "Truncated HLP data" fault)
  else
    set { r with pos := r.pos + count, reads := (r.pos, count) :: r.reads }
    return (r.data.drop r.pos).take count

def readByte (fault : PatchFault := .truncated) : PatchReadM UInt8 := do
  let p ← take 1 fault
  return p.getD 0 0

def readIndex (fault : PatchFault := .truncated) : PatchReadM Int := do
  let first := (← readByte fault).toNat
  if first &&& 0x80 = 0 then return first
  else if first &&& 0x40 = 0 then
    let p ← take 1 fault
    let value := (p.getD 0 0).toNat ||| (first &&& 31) <<< 8
    return if first &&& 0x20 = 0 then value else -value
  else
    let p ← take 3 fault
    let value := (first &&& 31) <<< 24 ||| (p.getD 0 0).toNat <<< 16 ||| (p.getD 1 0).toNat <<< 8 |||
      (p.getD 2 0).toNat
    return if first &&& 0x20 = 0 then value else -value

/-- The limit of `read_count`. -/
def countLimit : Int := 0x1000000

def readCount : PatchReadM Nat := do
  let value ← readIndex
  if value < 0 ∨ countLimit < value then
    throw (.failed "Invalid HLP count" (.count none value))
  else return value.toNat

def PatchReader.owe (r : PatchReader) (array : PatchArray) (count : Int) : PatchReader :=
  { r with owed := if 0 < count then array :: r.owed else r.owed }

/-- `read_count` into the count of an array: the value is stored before it is checked. -/
def readCountOf (array : PatchArray) : PatchReadM Nat := do
  let value ← readIndex
  modify (·.owe array value)
  if value < 0 ∨ countLimit < value then
    throw (.failed "Invalid HLP count" (.count (some array) value))
  else return value.toNat

/-- `read_hash`, and `read_i32`, which differs in the sign only. -/
def readHash : PatchReadM (BitVec 32) := do
  let p ← take 4
  let byte (i : Nat) := (p.getD i 0).toNat
  return BitVec.ofNat 32 (byte 0 ||| byte 1 <<< 8 ||| byte 2 <<< 16 ||| byte 3 <<< 24)

def readDouble : PatchReadM (BitVec 64) := do
  let p ← take 8
  return BitVec.ofNat 64 (p.foldr (fun b acc => b.toNat + acc <<< 8) 0)

def readText : PatchReadM (List UInt8) := do
  let count ← readCount
  take count

def alloc : PatchReadM Bool := do
  let r ← get
  set { r with allocs := r.allocs + 1 }
  return r.memory r.allocs

/-- An allocation that is checked, of something `hl_patch_free` does not walk. -/
def allocOne (error : String) : PatchReadM Unit := do
  let ok ← alloc
  if ok then pure () else throw (.failed error (.memory none 0))

def PatchReader.settle (r : PatchReader) (array : PatchArray) : PatchReader :=
  { r with owed := r.owed.filter (· ≠ array) }

/-- The allocation of an array of `count` entries, checked. -/
def allocArray (array : PatchArray) (count : Nat) (error : String) : PatchReadM Unit := do
  let ok ← alloc
  if ok ∨ count = 0 then modify (·.settle array)
  else throw (.failed error (.memory (some array) count))

/-- The allocation of an array whose result is not looked at. Without memory the first write to it,
or `hl_patch_free` when reading stops before, goes through the null pointer. -/
def allocUnchecked (array : PatchArray) (count : Nat) : PatchReadM Unit := do
  let ok ← alloc
  if ok ∨ count = 0 then modify (·.settle array) else throw .crashed

/-- A write to other memory whose allocation was not checked. -/
def store (ok : Bool) : PatchReadM Unit := if ok then pure () else throw .crashed

/-- `read_count` into such memory: the value is stored before it is checked. -/
def readCountInto (ok : Bool) : PatchReadM Nat := do
  let value ← readIndex
  store ok
  if value < 0 ∨ countLimit < value then
    throw (.failed "Invalid HLP count" (.count none value))
  else return value.toNat

def remaining : PatchReadM Nat := do
  let r ← get
  return r.limit - r.pos

def position : PatchReadM Nat := do
  let r ← get
  return r.pos

/-- `count` values, each written to an array of its own that `ok` says is there. -/
def collectInto {α : Type} (ok : Bool) (x : PatchReadM α) (count : Nat) : PatchReadM (List α) :=
  collect (do
    let a ← x
    store ok
    return a) count

def allocPatchRecords (count width : Nat) : PatchReadM Unit := do
  let rest ← remaining
  if rest / width < count then throw (.failed "Truncated HLP data" .truncated)
  else allocOne "Out of memory reading patch types"

def readPatchTypeFields (count : Nat) : PatchReadM (List HlPatchTypeField) := do
  allocPatchRecords count 2
  collect (do
    let name ← readIndex
    let type ← readIndex
    return { name, type }) count

def readPatchTypeMethods (count : Nat) : PatchReadM (List HlPatchTypeMethod) := do
  allocPatchRecords count 3
  collect (do
    let name ← readIndex
    let findex ← readIndex
    let pindex ← readIndex
    return { name, findex, pindex }) count

def readPatchTypeBindings (count : Nat) : PatchReadM (List HlPatchTypeBinding) := do
  allocPatchRecords count 2
  collect (do
    let field ← readIndex
    let findex ← readIndex
    return { field, findex }) count

/-- `read_patch_object_type`, for a virtual. -/
def readPatchVirtual : PatchReadM HlPatchObjectType := do
  let fieldCount ← readCount
  let fields ← readPatchTypeFields fieldCount
  return { fields }

/-- `read_patch_object_type`, for a class or a struct. -/
def readPatchClass : PatchReadM HlPatchObjectType := do
  let name ← readIndex
  let super ← readIndex
  let global ← readCount
  let fieldCount ← readCount
  let protoCount ← readCount
  let bindingCount ← readCount
  let fields ← readPatchTypeFields fieldCount
  let protos ← readPatchTypeMethods protoCount
  let bindings ← readPatchTypeBindings bindingCount
  return { name, super, global, fields, protos, bindings }

def readPatchFunctionType : PatchReadM HlPatchType := do
  let count := (← readByte).toNat
  let ok ← alloc
  demand (ok || count == 0) "Out of memory reading function type"
  let arguments ← collect readIndex count
  let result ← readIndex
  return { tag := .hFun, arguments, result }

def readPatchTypeData (version : Nat) (tag : HlTypeKind) : PatchReadM HlPatchType :=
  match tag with
  | .hFun => readPatchFunctionType
  | .hAbstract => return { tag, name := ← readIndex }
  | .hRef | .hNull => return { tag, parameter := ← readIndex }
  | .hPacked =>
    if 10 ≤ version then return { tag, parameter := ← readIndex } else fail "Unsupported HLP type"
  | .hVirtual =>
    if 10 ≤ version then return { tag, obj := ← readPatchVirtual } else fail "Unsupported HLP type"
  | .hObj =>
    if 10 ≤ version then return { tag, obj := ← readPatchClass } else fail "Unsupported HLP type"
  | .hStruct => if 10 ≤ version then return { tag, obj := ← readPatchClass } else return { tag }
  | .hEnum => fail "Unsupported HLP type"
  | _ => return { tag }

def readPatchType (version : Nat) : PatchReadM HlPatchType := do
  match Code.kindOf (← readByte) with
  | none => fail "Unsupported HLP type"
  | some tag => readPatchTypeData version tag

def makeInstruction (opcode : HlOp) (operands : List Int) : PatchReadM HlPatchInstruction :=
  if h : opcode.accepts operands then return ⟨opcode, operands, h⟩
  else fail "Unsupported patch opcode"

def readVariableOperands : PatchReadM (List Int) := do
  let ok ← alloc
  let operands ← collectInto ok readIndex 3
  let count := operands.getD 2 0
  demand (0 ≤ count && count ≤ countLimit) "Invalid variable operand count"
  allocOne "Out of memory reading patch operands"
  let more ← collect readIndex count.toNat
  return operands ++ more

def readPatchInstruction : PatchReadM HlPatchInstruction := do
  match Code.opOf (← readByte) with
  | none => fail "Unsupported patch opcode"
  | some opcode =>
    match opcode.operands with
    | some n =>
      let ok ← alloc
      let operands ← collectInto ok readIndex n
      makeInstruction opcode operands
    | none =>
      if opcode = .oSwitch then fail "Unsupported patch opcode"
      else
        let operands ← readVariableOperands
        makeInstruction opcode operands

/-- A call or closure whose target is a stable id: the instruction and the id. -/
def readRelocation (instructions ids : Bool) : PatchReadM (Nat × Nat) := do
  let instruction ← readCountInto instructions
  let id ← readCountInto ids
  return (instruction, id)

def readRelocations : PatchReadM (List (Nat × Nat)) := do
  let count ← readCount
  let instructions ← alloc
  let ids ← alloc
  collect (readRelocation instructions ids) count

def readRegisters (count ninstructions : Nat) : PatchReadM (List Int) := do
  let ok ← alloc
  collectInto ok (readIndex (.registers ninstructions)) count

def readPatchFunction : PatchReadM (HlPatchFunction × List (Nat × Nat)) := do
  let length ← readCount
  let start ← position
  let rest ← remaining
  if rest < length then throw (.failed "Truncated HLP data" .truncated)
  else
    let stableId ← readCount
    let type ← readIndex
    let findex ← readCount
    let registerCount ← readCount
    let instructionCount ← readCountOf .instructions
    let registers ← readRegisters registerCount instructionCount
    allocUnchecked .instructions instructionCount
    let instructions ← collect readPatchInstruction instructionCount
    let relocations ← readRelocations
    demand ((← position) = start + length) "Invalid patch function length"
    return ({ type, stableId, findex, registers, instructions }, relocations)

/-- A patch with what only the runtime looks at: the module it is for, the relocations of each
function, and the names of globals. -/
structure HlPatchFile where
  patch : HlPatch
  moduleId : List UInt8
  relocations : List (List (Nat × Nat))
  globalNames : List (Nat × List UInt8)

/-- What has been read: the patch so far and the tags of the sections it came from. -/
structure PatchBuild where
  file : HlPatchFile
  tags : List Nat

/-- A section that may not be there twice. -/
def once (build : PatchBuild) (tag : Nat) (error : String) : PatchReadM Unit :=
  demand (tag ∉ build.tags) error

def readStrings (count : Nat) : PatchReadM (List (List UInt8)) := do
  allocUnchecked .strings count
  let lens ← alloc
  collect (do
    let text ← readText
    store lens
    allocOne "Out of memory reading HLP"
    return text) count

def readSymbols (version : Nat) (p : HlPatch) : PatchReadM HlPatch := do
  let intPrefixHash ← readHash
  let baseIntCount ← readCount
  let intCount ← readCount
  let ok ← alloc
  let ints ← collectInto ok readHash intCount
  let floatPrefixHash ← readHash
  let baseFloatCount ← readCount
  let floatCount ← readCount
  let ok ← alloc
  let floats ← collectInto ok readDouble floatCount
  let stringPrefixHash ← readHash
  let baseStringCount ← readCount
  let stringCount ← readCountOf .strings
  let strings ← readStrings stringCount
  let typePrefixHash ← readHash
  let baseTypeCount ← readCount
  let typeCount ← readCountOf .types
  allocArray .types typeCount "Out of memory reading patch types"
  let types ← collect (readPatchType version) typeCount
  return { p with intPrefixHash, baseIntCount, ints, floatPrefixHash, baseFloatCount, floats
                  stringPrefixHash, baseStringCount, strings, typePrefixHash, baseTypeCount, types }

def readFunctions : PatchReadM (List (HlPatchFunction × List (Nat × Nat))) := do
  let count ← readCountOf .functions
  allocUnchecked .functions count
  collect readPatchFunction count

def readDebugFiles : PatchReadM (List (List UInt8)) := do
  let count ← readCountOf .debugFiles
  allocArray .debugFiles count "Out of memory reading patch debug files"
  let lens ← alloc
  demand (lens || count == 0) "Out of memory reading patch debug files"
  collect (do
    let text ← readText
    allocOne "Out of memory reading patch debug files"
    return text) count

def readDebugSpan (nfiles : Nat) : PatchReadM Nat := do
  let file ← readCount
  let line ← readCount
  let column ← readCount
  let endLine ← readCount
  let endColumn ← readCount
  let _ ← readHash
  let start ← readIndex
  let stop ← readIndex
  let _ ← readCount
  let start := start - 1
  let stop := stop - 1
  demand (file < nfiles && 1 ≤ line && 1 ≤ column && line ≤ endLine && 1 ≤ endColumn &&
      (line ≠ endLine || column ≤ endColumn) &&
      (start == -1 && stop == -1 || 0 ≤ start && start ≤ stop)) "Invalid HLP debug location"
  return file

/-- The function of the patch with a stable id, when there is exactly one. -/
def debugTarget (functions : List HlPatchFunction) (stableId : Nat) : Except String Nat :=
  match (List.range functions.length).filter fun j =>
      (functions[j]?).any fun f => f.stableId = (stableId : Int) with
  | [] => .error "Unknown HLP debug function"
  | [j] => .ok j
  | _ => .error "Duplicate HLP function debug metadata"

def readFunctionDebug (nfiles : Nat) (functions : List HlPatchFunction) :
    PatchReadM (List HlPatchFunction) := do
  let stableId ← readCount
  let nops ← readCount
  match debugTarget functions stableId with
  | .error e => fail e
  | .ok found =>
    match functions[found]? with
    | none => fail "Unknown HLP debug function"
    | some f =>
      demand f.debugSpans.isEmpty "Duplicate HLP function debug metadata"
      demand (nops == f.instructions.length) "HLP debug opcode count mismatch"
      let ok ← alloc
      demand (ok || nops == 0) "Out of memory reading patch debug metadata"
      let debugSpans ← collect (readDebugSpan nfiles) nops
      return functions.set found { f with debugSpans }

/-- The spans of `count` functions. -/
def debugLoop (nfiles : Nat) : Nat → List HlPatchFunction → PatchReadM (List HlPatchFunction)
  | 0, functions => return functions
  | count + 1, functions => do
      let functions ← readFunctionDebug nfiles functions
      debugLoop nfiles count functions

/-- `read_count`, in a place that answers every failure with a text of its own. -/
def readCountOr (error : String) : PatchReadM Nat := fun r =>
  match readCount r with
  | .ok count r => .ok count r
  | .error (.failed _ fault) r => .error (.failed error fault) r
  | .error .crashed r => .error .crashed r

def readDebug (p : HlPatch) : PatchReadM HlPatch := do
  let debugFiles ← readDebugFiles
  let count ← readCountOr "HLP debug function count mismatch"
  demand (count == p.functions.length) "HLP debug function count mismatch"
  let functions ← debugLoop debugFiles.length count p.functions
  return { p with debugFiles, functions }

def snapshotHash (content : List UInt8) : BitVec 32 :=
  content.foldl (fun hash b => (hash ^^^ BitVec.ofNat 32 b.toNat) * 16777619#32) 2166136261#32

def readSnapshot (seen : List (BitVec 32 × Nat)) : PatchReadM (BitVec 32 × Nat) := do
  let sourceHash ← readHash
  demand (sourceHash ≠ 0#32) "Truncated HLP data"
  let content ← readText
  demand (seen.all fun (hash, _) => hash ≠ sourceHash) "Duplicate HLP source snapshot"
  demand (snapshotHash content == sourceHash) "Invalid HLP source snapshot hash"
  let ok ← alloc
  demand (ok || content.isEmpty) "Out of memory reading source snapshot"
  return (sourceHash, content.length)

def readGrowing {α : Type} (entry : List α → PatchReadM α) : Nat → List α → PatchReadM (List α)
  | 0, seen => return seen
  | count + 1, seen => do
      let a ← entry seen
      readGrowing entry count (seen ++ [a])

def readSnapshots : PatchReadM (List (BitVec 32 × Nat)) := do
  let count ← readCountOf .sourceSnapshots
  allocArray .sourceSnapshots count "Out of memory reading source snapshots"
  readGrowing readSnapshot count []

def readAddedFunction (seen : List HlPatchAddedFunction) : PatchReadM HlPatchAddedFunction := do
  let stableId ← readCount
  let findex ← readCount
  let type ← readIndex
  let name ← readText
  allocOne "Out of memory reading added functions"
  demand (seen.all fun a => a.stableId ≠ (stableId : Int) && a.findex ≠ (findex : Int))
    "Duplicate HLP added function"
  return { stableId, findex, type, name }

def readAddedFunctions : PatchReadM (List HlPatchAddedFunction) := do
  let count ← readCountOf .addedFunctions
  allocArray .addedFunctions count "Out of memory reading added functions"
  readGrowing readAddedFunction count []

/-- A count of a section that must not be zero nor more than there is room for, with `width` bytes
for an entry at least. -/
def boundedCount (array : PatchArray) (least count width : Nat) (error : String) :
    PatchReadM Unit := do
  let rest ← remaining
  if count < least then fail error
  else if rest / width < count then throw (.failed error (.tooMany array count))
  else pure ()

def readConstant : PatchReadM HlPatchGlobal := do
  let type ← readCount
  let fieldCount ← readCount
  let rest ← remaining
  demand (fieldCount ≤ rest) "Truncated HLP data"
  allocOne "Out of memory reading patch globals"
  let fields ← collect readCount fieldCount
  return { type, fields := some (fields.map Int.ofNat) }

def readPatchGlobal (version : Nat) : PatchReadM HlPatchGlobal := do
  if 10 ≤ version then
    let kind ← readByte
    if kind = 0 then
      let type ← readCount
      return { type, fields := none }
    else if kind = 1 then readConstant
    else fail "Invalid HLP global kind"
  else readConstant

def readGlobals (version : Nat) (p : HlPatch) : PatchReadM HlPatch := do
  let globalPrefixHash ← readHash
  let baseGlobalCount ← readCount
  let count ← readCountOf .globals
  boundedCount .globals 1 count 2 "Invalid HLP globals section"
  allocArray .globals count "Out of memory reading patch globals"
  let globals ← collect (readPatchGlobal version) count
  return { p with globalPrefixHash, baseGlobalCount, globals }

def readObjectField (seen : List HlPatchObjectField) : PatchReadM HlPatchObjectField := do
  let type ← readCount
  let field ← readCount
  let name ← readCount
  let fieldType ← readCount
  demand (seen.all fun f => f.type ≠ (type : Int) || f.field ≠ (field : Int))
    "Duplicate HLP object field"
  return { type, field, name, fieldType }

/-- Section 7. The array is freed as a whole, so its count owes nothing. -/
def readObjectFields : PatchReadM (List HlPatchObjectField) := do
  let count ← readCount
  let rest ← remaining
  demand (1 ≤ count && count ≤ rest / 4) "Invalid HLP object fields section"
  allocOne "Out of memory reading patch object fields"
  readGrowing readObjectField count []

def readMigration (seen : List HlPatchMigration) : PatchReadM HlPatchMigration := do
  let type ← readCount
  let stableId ← readCount
  demand (seen.all fun g => g.type ≠ (type : Int)) "Duplicate HLP migration"
  return { type, stableId, findex := -1 }

def readMigrations : PatchReadM (List HlPatchMigration) := do
  let count ← readCount
  let rest ← remaining
  demand (1 ≤ count && count ≤ rest / 2) "Invalid HLP migrations section"
  allocOne "Out of memory reading patch migrations"
  readGrowing readMigration count []

def readGuard : PatchReadM HlPatchGuard := do
  let stableId ← readCount
  let description ← readText
  allocOne "Out of memory reading patch guards"
  return { stableId, findex := -1, description }

def readGlobalName : PatchReadM (Nat × List UInt8) := do
  let index ← readCount
  let name ← readText
  allocOne "Out of memory reading patch guards"
  return (index, name)

def readGlobalNames : PatchReadM (List (Nat × List UInt8)) := do
  let count ← readCountOf .globalNames
  boundedCount .globalNames 0 count 2 "Invalid HLP guards section"
  if count = 0 then return []
  else
    allocArray .globalNames count "Out of memory reading patch guards"
    allocOne "Out of memory reading patch guards"
    collect readGlobalName count

def readGuards : PatchReadM (List HlPatchGuard × List (Nat × List UInt8)) := do
  let count ← readCountOf .guards
  boundedCount .guards 1 count 2 "Invalid HLP guards section"
  allocArray .guards count "Out of memory reading patch guards"
  let guards ← collect readGuard count
  let globalNames ← readGlobalNames
  return (guards, globalNames)

def readSectionBody (version tag : Nat) (build : PatchBuild) : PatchReadM HlPatchFile := do
  let file := build.file
  match tag with
  | 1 =>
    once build 1 "Duplicate HLP symbols section"
    let patch ← readSymbols version file.patch
    return { file with patch }
  | 2 =>
    once build 2 "Duplicate HLP functions section"
    let functions ← readFunctions
    return { file with patch := { file.patch with functions := functions.map Prod.fst }
                       relocations := functions.map Prod.snd }
  | 3 =>
    demand (3 ∉ build.tags && 2 ∈ build.tags) "Duplicate or misplaced HLP debug section"
    let patch ← readDebug file.patch
    return { file with patch }
  | 4 =>
    once build 4 "Duplicate HLP source snapshot section"
    let snapshots ← readSnapshots
    return { file with patch := { file.patch with sourceSnapshots := snapshots.map Prod.snd } }
  | 5 =>
    once build 5 "Duplicate HLP added functions section"
    let addedFunctions ← readAddedFunctions
    return { file with patch := { file.patch with addedFunctions } }
  | 6 =>
    once build 6 "Duplicate HLP globals section"
    let patch ← readGlobals version file.patch
    return { file with patch }
  | 7 =>
    once build 7 "Duplicate HLP object fields section"
    let objectFields ← readObjectFields
    return { file with patch := { file.patch with objectFields } }
  | 8 =>
    once build 8 "Duplicate HLP migrations section"
    let migrations ← readMigrations
    return { file with patch := { file.patch with migrations } }
  | 9 =>
    once build 9 "Duplicate HLP guards section"
    let (guards, globalNames) ← readGuards
    return { file with patch := { file.patch with guards }, globalNames }
  | _ =>
    modify fun r => { r with pos := r.limit }
    return file

/-- Reads a section of `length` bytes at the cursor, whose header starts at `header`; all of it has to
be used. -/
def inSection {α : Type} (tag header length : Nat) (x : PatchReadM α) : PatchReadM α := do
  let r ← get
  set { r with limit := r.pos + length }
  let a ← x
  let s ← get
  if s.pos ≠ s.limit then fail "Invalid HLP section length"
  else
    set { s with limit := r.limit, sections := s.sections ++ [PatchSection.mk tag header r.pos length s.pos] }
    return a

def readSection (version : Nat) (build : PatchBuild) : PatchReadM PatchBuild := do
  let header ← position
  let tag := (← readByte).toNat
  let length ← readCount
  let rest ← remaining
  if rest < length then throw (.failed "Truncated HLP data" .truncated)
  else
    let file ← inSection tag header length (readSectionBody version tag build)
    return { file, tags := tag :: build.tags }

def readSections (version : Nat) : Nat → PatchBuild → PatchReadM PatchBuild
  | 0, build => return build
  | count + 1, build => do
      let build ← readSection version build
      readSections version count build

def HlPatchFile.empty (moduleId : List UInt8) (baseRevision revision : Nat) : HlPatchFile where
  patch :=
    { baseRevision, revision, intPrefixHash := 0, floatPrefixHash := 0, stringPrefixHash := 0
      typePrefixHash := 0, baseIntCount := 0, ints := [], baseFloatCount := 0, floats := []
      baseStringCount := 0, strings := [], baseTypeCount := 0, types := [], functions := []
      addedFunctions := [], debugFiles := [], sourceSnapshots := [], globalPrefixHash := 0
      baseGlobalCount := 0, globals := [], objectFields := [], migrations := [], guards := [] }
  moduleId := moduleId
  relocations := []
  globalNames := []

def readHeader : PatchReadM (Nat × HlPatchFile × Nat) := do
  allocOne "Out of memory reading HLP"
  let magic ← take 3
  demand (magic == [0x48, 0x4C, 0x50]) "Invalid HLP magic"
  let version := (← readByte).toNat
  demand (version == 9 || version == 10) "Unsupported HLP version"
  let moduleId ← take 16
  let baseRevision ← readCount
  let revision ← readCount
  demand (baseRevision < revision) "Invalid patch revision range"
  let sectionCount ← readCount
  return (version, .empty moduleId baseRevision revision, sectionCount)

/-- The reading part of `hl_patch_read`, up to its failure path. -/
def readPatch : PatchReadM HlPatchFile := do
  let (version, file, sectionCount) ← readHeader
  let build ← readSections version sectionCount { file, tags := [] }
  demand (1 ∈ build.tags && 2 ∈ build.tags) "Missing required HLP section"
  let r ← get
  demand (r.pos == r.limit) "Trailing HLP data"
  return build.file

def PatchReader.start (data : List UInt8) (memory : Nat → Bool) : PatchReader :=
  { data, memory, pos := 0, limit := data.length }

/-- How `hl_patch_read` ends. -/
inductive PatchOutcome where
  | accepted (file : HlPatchFile)
  | refused (error : String)
  | crashed

/-- `hl_patch_free` goes through a null pointer when the patch has a positive count for an array it
does not have. -/
def hlPatchFree (r : PatchReader) (error : String) : PatchOutcome :=
  if r.owed.isEmpty then .refused error else .crashed

def hlPatchRead (data : List UInt8) (memory : Nat → Bool) : PatchOutcome :=
  match readPatch (.start data memory) with
  | .ok file _ => .accepted file
  | .error (.failed error _) r => hlPatchFree r error
  | .error .crashed _ => .crashed

end HashLink.Hlp
