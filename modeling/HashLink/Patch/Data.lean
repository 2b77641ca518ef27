import HashLink.Module
import HashLink.Opcode

/-!
A patch as `hl_patch_read` builds it. An index is an integer as it stands in the file; a count is
the length of the list it counts.
-/

namespace HashLink

/-- The operands `hl_patch_read` gives an opcode. An opcode of a fixed shape has as many as its
shape says; the variable ones have three and then as many more as the third of them says. The
reader refuses every other variable opcode, so a patch has no `OSwitch`. -/
def HlOp.accepts (op : HlOp) (operands : List Int) : Bool :=
  match op.operands with
  | some n => operands.length = n
  | none => op ≠ .oSwitch && 3 ≤ operands.length && operands.length = 3 + operands.getD 2 0

theorem oRet_accepts : HlOp.oRet.accepts [0] = true := rfl

/-- `hl_patch_instruction`, as the reader leaves it. -/
structure HlPatchInstruction where
  opcode : HlOp
  operands : List Int
  accepted : opcode.accepts operands

/-- `op->operands[k]`. -/
def HlPatchInstruction.p (op : HlPatchInstruction) (k : Nat) : Int := op.operands.getD k 0

/-- `hl_patch_function`. Of a debug span only the file it names is kept. -/
structure HlPatchFunction where
  type : Int
  stableId : Int
  findex : Int
  registers : List Int
  instructions : List HlPatchInstruction
  debugSpans : List Nat := []

structure HlPatchTypeField where
  name : Int
  type : Int

structure HlPatchTypeMethod where
  name : Int
  findex : Int
  pindex : Int

structure HlPatchTypeBinding where
  field : Int
  findex : Int

structure HlPatchObjectType where
  name : Int := 0
  super : Int := -1
  global : Nat := 0
  fields : List HlPatchTypeField := []
  protos : List HlPatchTypeMethod := []
  bindings : List HlPatchTypeBinding := []

/-- `hl_patch_type`, with the members of its union side by side: the reader fills the one that
belongs to the tag. -/
structure HlPatchType where
  tag : HlTypeKind
  arguments : List Int := []
  result : Int := 0
  name : Int := 0
  parameter : Int := 0
  obj : HlPatchObjectType := {}

structure HlPatchAddedFunction where
  stableId : Int
  findex : Int
  type : Int
  name : List UInt8

/-- `hl_patch_global`; `fields` is `none` for a field count of -1, the null slot of a type. -/
structure HlPatchGlobal where
  type : Int
  fields : Option (List Int)

structure HlPatchObjectField where
  type : Int
  field : Int
  name : Int
  fieldType : Int

structure HlPatchMigration where
  type : Int
  stableId : Int
  findex : Int

structure HlPatchGuard where
  stableId : Int
  findex : Int
  description : List UInt8

/-- `hl_patch`, without the module id and the names of the globals, which only a refusal quotes.
Of a source snapshot only the length of its content is kept. -/
structure HlPatch where
  baseRevision : Int
  revision : Int
  intPrefixHash : BitVec 32
  floatPrefixHash : BitVec 32
  stringPrefixHash : BitVec 32
  typePrefixHash : BitVec 32
  baseIntCount : Nat
  ints : List (BitVec 32)
  baseFloatCount : Nat
  floats : List (BitVec 64)
  baseStringCount : Nat
  strings : List (List UInt8)
  baseTypeCount : Nat
  types : List HlPatchType
  functions : List HlPatchFunction
  addedFunctions : List HlPatchAddedFunction
  debugFiles : List (List UInt8)
  sourceSnapshots : List Nat
  globalPrefixHash : BitVec 32
  baseGlobalCount : Nat
  globals : List HlPatchGlobal
  objectFields : List HlPatchObjectField
  migrations : List HlPatchMigration
  guards : List HlPatchGuard

def HlPatch.totalTypes (patch : HlPatch) : Nat := patch.baseTypeCount + patch.types.length

def HlPatch.totalStrings (patch : HlPatch) : Nat := patch.baseStringCount + patch.strings.length

def HlPatch.totalInts (patch : HlPatch) : Nat := patch.baseIntCount + patch.ints.length

def HlPatch.totalFloats (patch : HlPatch) : Nat := patch.baseFloatCount + patch.floats.length

end HashLink
