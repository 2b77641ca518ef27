import HashLink.Lib.SortedTable
import Mathlib.Algebra.Group.Int.Units

/-!
The loaded module: its symbol tables, its types and the slots its functions are called through.
A pointer to a type is the index of its entry in the type arena. Tables that are allocated with
room for patches are lists of their full capacity, next to the count of their live entries.
-/

namespace HashLink

inductive HlTypeKind where
  | hVoid | hUi8 | hUi16 | hI32 | hI64 | hF32 | hF64 | hBool | hBytes | hDyn | hFun | hObj | hArray
  | hType | hRef | hVirtual | hDynObj | hAbstract | hEnum | hNull | hMethod | hStruct | hPacked
  | hGuid
  deriving DecidableEq, Repr, Inhabited

def hlWSize : Nat := 8

/-- `T_SIZES`. -/
def HlTypeKind.size : HlTypeKind → Nat
  | .hVoid | .hPacked => 0
  | .hUi8 | .hBool => 1
  | .hUi16 => 2
  | .hI32 | .hF32 => 4
  | .hI64 | .hF64 | .hGuid => 8
  | _ => hlWSize

/-- `hl_pad_size`: what brings `size` to a multiple of the size of the kind. No value of a packed
kind, which has no size of its own, is laid out with it. -/
def hlPadSize (size : Nat) (kind : HlTypeKind) : Nat :=
  if kind = .hVoid ∨ kind.size = 0 then 0 else (kind.size - size % kind.size) % kind.size

/-- `hl_pad_struct`: a packed field starts where a pointer could. -/
def hlPadStruct (size : Nat) (kind : HlTypeKind) : Nat :=
  if kind = .hPacked then (hlWSize - size % hlWSize) % hlWSize else hlPadSize size kind

structure HlObjField where
  name : List UInt16
  hashedName : Int
  t : Nat
  deriving DecidableEq, Repr

structure HlObjProto where
  name : List UInt16
  hashedName : Int
  findex : Int
  pindex : Int
  deriving DecidableEq, Repr

structure HlFieldLookup where
  hashedName : Int
  t : Nat
  fieldIndex : Int
  deriving DecidableEq, Repr

/-- What a patch uses of `hl_runtime_obj`: the lookup, the offsets of the fields and the number of
inherited ones. `hl_get_obj_rt` builds it on first use from the fields of the class as loaded; the
model has it from the start. -/
structure HlRuntimeObj where
  lookup : List HlFieldLookup
  fieldsIndexes : List Int
  parentFields : Nat
  deriving DecidableEq, Repr

/-- `hl_type_obj`. The value slot is an offset into the data of the globals. -/
structure HlTypeObj where
  name : List UInt16
  super : Option Nat
  fields : List HlObjField
  protos : List HlObjProto
  bindings : List Int
  globalValue : Option Int
  rt : HlRuntimeObj
  deriving DecidableEq, Repr

/-- The union of `hl_type`. -/
inductive HlTypeData where
  | null
  | fun_ (args : List Nat) (ret : Nat)
  | obj (obj : HlTypeObj)
  | virt (fields : List HlObjField)
  | absName (name : List UInt16)
  | tparam (t : Nat)
  | tenum (name : List UInt16) (constructs : List (List UInt16 × List Nat))
  deriving DecidableEq, Repr

/-- `hl_type`; `gcOwner` says that the entry names the module as its owner. -/
structure HlType where
  kind : HlTypeKind
  data : HlTypeData
  gcOwner : Bool
  deriving DecidableEq, Repr

def HlType.zero : HlType := ⟨.hVoid, .null, false⟩

instance : Inhabited HlType := ⟨HlType.zero⟩

/-- The `obj` member of the union. -/
def HlType.obj? (t : HlType) : Option HlTypeObj :=
  match t.data with
  | .obj o => some o
  | _ => none

/-- What the patch code reads of `hl_function`. -/
structure HlFunction where
  findex : Int
  type : Nat
  deriving DecidableEq, Repr

/-- `hl_module` with its `hl_code`. Code addresses and owners of patch code are numbers, `none` for
a null pointer. `functions` has the loaded functions and then those patches added. -/
structure HlModule where
  patchable : Bool
  revision : Int
  ints : List (BitVec 32)
  floats : List (BitVec 64)
  strings : List (List UInt8)
  types : List HlType
  ntypes : Nat
  globals : List (Option Nat)
  globalsIndexes : List Int
  nglobals : Nat
  npatchglobals : Nat
  globalsData : List UInt8
  globalsSize : Nat
  natives : List Nat
  functions : List HlFunction
  npatchfunctions : Nat
  functionsCapacity : Nat
  functionStableIds : List Int
  functionNames : List (Option (List UInt8))
  functionsIndexes : List Int
  functionsTypes : List (Option Nat)
  functionsPtrs : List (Option Nat)
  patchTargets : Option (List (Option Nat))
  patchOrigin : Option (List (Option Nat))
  patchOwners : List (Option Nat)
  debugFiles : List (List UInt8)
  patchFailureStage : Nat

/-- `m->code->types_capacity`. -/
def HlModule.typesCapacity (m : HlModule) : Nat := m.types.length

/-- `m->globals_data_capacity`. -/
def HlModule.globalsDataCapacity (m : HlModule) : Nat := m.globalsData.length

/-- `module_slot_count`. -/
def HlModule.slotCount (m : HlModule) : Nat := m.functions.length + m.natives.length

/-- `m->code->types + index`. -/
def HlModule.typeAt (m : HlModule) (index : Nat) : HlType := m.types.getD index .zero

end HashLink
