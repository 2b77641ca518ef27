import HashLink.Module
import HashLink.Lib.FlatMemory

/-! Dynamic objects and the virtual views on them, as `obj.c` keeps them. The fields of an object
live in two arrays, one for pointers and one for raw bytes, and a view caches the address of every
field it shares with the object. Memory is bytes at flat addresses, so that an address which was
not moved with its array is a wrong one. -/

namespace HashLink

/-- `hl_is_ptr`. -/
def HlTypeKind.isPtr : HlTypeKind → Bool
  | .hVoid | .hUi8 | .hUi16 | .hI32 | .hI64 | .hF32 | .hF64 | .hBool | .hGuid => false
  | _ => true

namespace DynObj

open FlatMemory

/-- What `hl_same_type` sees of a type. Classes, virtuals, abstracts and enumerations are compared
by identity. -/
inductive HlTy where
  | basic (kind : HlTypeKind)
  | param (kind : HlTypeKind) (t : HlTy)
  | func (kind : HlTypeKind) (args : List HlTy) (ret : HlTy)
  | named (kind : HlTypeKind) (id : Nat)

def HlTy.kind : HlTy → HlTypeKind
  | .basic kind | .param kind _ | .func kind _ _ | .named kind _ => kind

/-- The bytes a field takes: a pointer takes a word of the array of values. -/
def HlTy.width (t : HlTy) : Nat := if t.kind.isPtr then 8 else t.kind.size

mutual

/-- `hl_same_type` on the types of fields, which are trees here. On the memory of all types, where a type may
contain itself, it is `HotReload.hlSameType`. -/
def hlSameType : HlTy → HlTy → Bool
  | .basic k, .basic k' => k = k'
  | .param k t, .param k' t' => k = k' && hlSameType t t'
  | .func k args ret, .func k' args' ret' => k = k' && hlSameArgs args args' && hlSameType ret ret'
  | .named k id, .named k' id' => k = k' && id = id'
  | _, _ => false

def hlSameArgs : List HlTy → List HlTy → Bool
  | [], [] => true
  | t :: ts, t' :: ts' => hlSameType t t' && hlSameArgs ts ts'
  | _, _ => false

end

structure VField where
  hash : Int
  t : HlTy

/-- An entry of the lookup of a virtual type. -/
structure VLookup where
  hash : Int
  t : HlTy
  index : Nat

/-- The table `hl_init_virtual` builds, field by field. -/
def initLookup (fields : List VField) : List VLookup :=
  (fields.zipIdx).foldl (fun l (vf, i) => SortedTable.insert VLookup.hash l ⟨vf.hash, vf.t, i⟩) []

/-- `hl_type_virtual`. -/
structure VirtType where
  id : Nat
  fields : List VField

/-- A type that declares each name once, and no field that is `Void`. Nothing checks it. -/
structure VirtType.Proper (vt : VirtType) : Prop where
  nodup : (vt.fields.map VField.hash).Nodup
  valued : ∀ vf ∈ vt.fields, vf.t.kind ≠ .hVoid

/-- The indexes `hl_init_virtual` gives the data of a virtual that is no view, with the size. -/
def initIndexes : List VField → Nat → List Nat × Nat
  | [], size => ([], size)
  | vf :: rest, size =>
    let index := size + hlPadStruct size vf.t.kind
    let (indexes, size) := initIndexes rest (index + vf.t.kind.size)
    (index :: indexes, size)

def VirtType.indexes (vt : VirtType) : List Nat × Nat :=
  initIndexes vt.fields (24 + hlWSize * vt.fields.length)

def VirtType.find (vt : VirtType) (hash : Int) : Option VLookup :=
  SortedTable.find VLookup.hash (initLookup vt.fields) hash

/-- An entry of the lookup of an object. The index is the low part of `field_index` and the order
the high one. -/
structure DynField where
  hash : Int
  t : HlTy
  index : Nat
  order : Nat

namespace DynField

def isPtr (f : DynField) : Bool := f.t.kind.isPtr

/-- `hl_type_size`. -/
def size (f : DynField) : Nat := f.t.kind.size

def width (f : DynField) : Nat := if f.isPtr then 8 else f.size

end DynField

/-- `vvirtual`: its type and the slots that cache addresses. Zero is a null pointer. -/
structure View where
  t : VirtType
  slots : List Int

/-- `vdynobj`, with the views on it and the memory. -/
structure DynState where
  mem : Memory
  lookup : List DynField
  values : Int
  nvalues : Nat
  raw : Int
  rawSize : Nat
  virtuals : List View

/-- `HL_DYNOBJ_INDEX_MASK`. -/
def indexMask : Nat := 2 ^ 17 - 1

/-- The orders `field_index` has room for. -/
def orderLimit : Nat := 2 ^ 15

namespace DynState

/-- `hl_dynobj_field`. -/
def addr (o : DynState) (f : DynField) : Int :=
  if f.isPtr then o.values + 8 * f.index else o.raw + f.index

def contents (o : DynState) (f : DynField) : List UInt8 := bytes o.mem (o.addr f) f.width

/-- `hl_lookup_find` on the lookup of an object. -/
def find (o : DynState) (hash : Int) : Option DynField := SortedTable.find DynField.hash o.lookup hash

end DynState

def View.shift (v : View) (g : HlTy → Int → Int) : View :=
  { v with slots := List.zipWith (fun vf s => g vf.t s) v.t.fields v.slots }

def View.setSlot (v : View) (hash : Int) (x : HlTy → Int) : View :=
  match v.t.find hash with
  | some vf => { v with slots := v.slots.set vf.index (x vf.t) }
  | none => v

namespace DynState

/-- `hl_dynobj_remap_virtuals`: the array of `f` moved by an offset, and `f` is where it is now. -/
def hlDynobjRemapVirtuals (o : DynState) (f : DynField) (offset : Int) : DynState :=
  { o with
    virtuals := o.virtuals.map fun v =>
      let v := if offset ≠ 0 then
        v.shift fun t s => if s ≠ 0 ∧ t.kind.isPtr = f.isPtr then s + offset else s
      else v
      v.setSlot f.hash fun t => if hlSameType t f.t then o.addr f else 0 }

def dropValue (o : DynState) (index : Nat) : DynState :=
  { o with
    mem := writeBytes (copyBytes o.mem (o.values + 8 * index) (o.values + 8 * (index + 1 : Nat))
        (8 * (o.nvalues - (index + 1))))
      (o.values + 8 * (o.nvalues - 1 : Nat)) 8 fun _ => 0
    nvalues := o.nvalues - 1
    lookup := o.lookup.map fun g =>
      if g.isPtr ∧ index < g.index then { g with index := g.index - 1 } else g }

def eraseData (o : DynState) (f : DynField) : DynState :=
  if f.isPtr then o.dropValue f.index else o

/-- `hl_dynobj_delete_field` of the entry `i`, which is `f`. -/
def hlDynobjDeleteField (o : DynState) (i : Nat) (f : DynField) : DynState :=
  let o := o.eraseData f
  { o with
    virtuals := o.virtuals.map fun v =>
      let v := v.setSlot f.hash fun _ => 0
      if f.isPtr then
        v.shift fun t s =>
          if t.kind.isPtr ∧ s ≠ 0 ∧ o.values + 8 * f.index < s then s - 8 else s
      else v
    lookup := (o.lookup.eraseIdx i).map fun g =>
      if f.order < g.order then { g with order := g.order - 1 } else g }

def packedSize : List DynField → Nat → Nat
  | [], n => n
  | f :: rest, n =>
    if f.isPtr then packedSize rest n
    else packedSize rest (n + hlPadSize n f.t.kind + f.size)

/-- The raw data that an addition keeps: the fields packed, unless the mapping there is is better. -/
def keptSize (o : DynState) : Nat :=
  let rawSize := packedSize o.lookup 0
  if o.rawSize < rawSize then o.rawSize else rawSize

/-- A raw field is copied to an index of new data, and the views are told while the object still has
its old data. -/
def compactField (o : DynState) (newData : Int) (f : DynField) (n : Nat) : DynState :=
  let o := { o with mem := copyBytes o.mem (newData + n) (o.raw + f.index) f.size }
  if f.index ≠ n then o.hlDynobjRemapVirtuals { f with index := n } 0 else o

def compactLoop (newData : Int) : List DynField → Nat → DynState → List DynField × Nat × DynState
  | [], n, o => ([], n, o)
  | f :: rest, n, o =>
    if f.isPtr then
      let (l, n', o') := compactLoop newData rest n o
      (f :: l, n', o')
    else
      let n := n + hlPadSize n f.t.kind
      let (l, n', o') := compactLoop newData rest (n + f.size) (o.compactField newData f n)
      ({ f with index := n } :: l, n', o')

def moveRaw (o : DynState) (newData : Int) (size : Nat) : DynState :=
  if size = o.rawSize then { o with mem := copyBytes o.mem newData o.raw o.rawSize }
  else
    let (l, n, o) := compactLoop newData o.lookup 0 o
    { o with lookup := l, rawSize := n }

/-- An address the collector may return for new data: a block that is not in use. -/
def Fresh (o : DynState) (a : Int) (size : Nat) : Prop :=
  0 < a ∧ Apart a size o.values (8 * o.nvalues) ∧ Apart a size o.raw o.rawSize

instance (o : DynState) (a : Int) (size : Nat) : Decidable (o.Fresh a size) :=
  inferInstanceAs (Decidable (_ ∧ _))

/-- The end of `hl_dynobj_add_field`: the entry is put in the lookup and the views are told. -/
def addEntry (o : DynState) (hash : Int) (t : HlTy) (index : Nat) (offset : Int) :
    DynState × DynField :=
  let f : DynField := ⟨hash, t, index, o.lookup.length % orderLimit⟩
  let pos := SortedTable.place DynField.hash o.lookup hash
  let o := { o with lookup := o.lookup.take pos ++ f :: o.lookup.drop pos }
  (o.hlDynobjRemapVirtuals f offset, f)

/-- `hl_dynobj_add_field`. There is no result when it raises an error, which it does before it
changes the object. An address that is not free is one the collector does not return, and counts as
an allocation that failed. -/
def hlDynobjAddField (o : DynState) (hash : Int) (t : HlTy) (newData : Int) :
    Option (DynState × DynField) :=
  if t.kind.isPtr then
    let index := o.nvalues
    if indexMask < index then none
    else if o.Fresh newData (8 * (o.nvalues + 1)) then
      let offset := newData - o.values
      let o := { o with
        mem := writeBytes (copyBytes o.mem newData o.values (8 * o.nvalues)) (newData + 8 * index) 8 fun _ => 0
        values := newData
        nvalues := o.nvalues + 1 }
      some (o.addEntry hash t index offset)
    else none
  else
    let rawSize := o.keptSize
    let pad := hlPadSize rawSize t.kind
    if indexMask < rawSize + pad then none
    else if o.Fresh newData (rawSize + pad + t.kind.size) then
      let o := o.moveRaw newData rawSize
      let offset := newData - o.raw
      let index := o.rawSize + pad
      let o := { o with raw := newData, rawSize := index + t.kind.size }
      some (o.addEntry hash t index offset)
    else none

/-- `hl_obj_lookup_set`. The field is missing when an error was raised. -/
def hlObjLookupSet (o : DynState) (hash : Int) (t : HlTy) (newData : Int) :
    DynState × Option DynField :=
  let add (o : DynState) : DynState × Option DynField :=
    match o.hlDynobjAddField hash t newData with
    | some (o', f) => (o', some f)
    | none => (o, none)
  match SortedTable.findIdx DynField.hash o.lookup hash with
  | none => add o
  | some i =>
    match o.lookup[i]? with
    | none => (o, none)
    | some f =>
      if hlSameType t f.t then (o, some f)
      else if t.kind.isPtr ≠ f.isPtr ∨ t.kind.size ≠ f.size then
        add (o.hlDynobjDeleteField i f)
      else
        let f' := { f with t }
        (({ o with lookup := o.lookup.set i f' }).hlDynobjRemapVirtuals f' 0, some f')

def write (o : DynState) (f : DynField) (value : Nat → UInt8) : DynState :=
  { o with mem := writeBytes o.mem (o.addr f) f.width value }

/-- A `hl_dyn_set` function: the field is found or made, and its bytes are written. -/
def setField (o : DynState) (hash : Int) (t : HlTy) (newData : Int) (value : Nat → UInt8) :
    DynState × Bool :=
  match o.hlObjLookupSet hash t newData with
  | (o', some f) => (o'.write f value, true)
  | (o', none) => (o', false)

/-- `hl_obj_delete_field`. -/
def deleteField (o : DynState) (hash : Int) : DynState :=
  match SortedTable.findIdx DynField.hash o.lookup hash with
  | none => o
  | some i =>
    match o.lookup[i]? with
    | some f => o.hlDynobjDeleteField i f
    | none => o

/-- The slot `hl_to_virtual` gives a field. -/
def newSlot (o : DynState) (vf : VField) : Int :=
  match o.find vf.hash with
  | some f => if hlSameType f.t vf.t then o.addr f else 0
  | none => 0

def hlAllocDynobj (mem : Memory) : DynState := ⟨mem, [], 0, 0, 0, 0, []⟩

/-- The lookup `hl_virtual_make_value` makes from the one of the virtual, with the sizes of the two
arrays. There is none when a field has no room for its index. -/
def makeLookup : List VLookup → Nat → Nat → Nat → Option (List DynField × Nat × Nat)
  | [], _, nvalues, rawSize => some ([], nvalues, rawSize)
  | vf :: rest, i, nvalues, rawSize =>
    let isPtr := vf.t.kind.isPtr
    let index := if isPtr then nvalues else rawSize + hlPadSize rawSize vf.t.kind
    if indexMask < index then none
    else
      (makeLookup rest (i + 1) (if isPtr then nvalues + 1 else nvalues)
        (if isPtr then rawSize else index + vf.t.kind.size)).map fun (l, n, r) =>
          (⟨vf.hash, vf.t, index, i % orderLimit⟩ :: l, n, r)

def bindLoop (o : DynState) : List (DynField × VLookup) → Memory → List Int → Memory × List Int
  | [], mem, slots => (mem, slots)
  | (f, vf) :: rest, mem, slots =>
    bindLoop o rest (copyBytes mem (o.addr f) (slots.getD vf.index 0) f.size) (slots.set vf.index (o.addr f))

def eraseLoop (base : Int) : List (VField × Nat) → Memory → Memory
  | [], mem => mem
  | (vf, index) :: rest, mem =>
    eraseLoop base rest (writeBytes mem (base + index) vf.t.kind.size fun _ => 0)

/-- The address of new data of a size; there is no block of no bytes. -/
def allocAt (a : Int) (size : Nat) : Int := if size = 0 then 0 else a

/-- `hl_virtual_make_value` of a virtual at `base` that has its own data. -/
def hlVirtualMakeValue (vt : VirtType) (base : Int) (mem : Memory) (rawAt valuesAt : Int) :
    Option DynState :=
  let lookup := initLookup vt.fields
  let (indexes, size) := vt.indexes
  match makeLookup lookup 0 0 0 with
  | none => none
  | some (l, nvalues, rawSize) =>
    if 0 < rawAt ∧ 0 < valuesAt ∧ Apart rawAt rawSize base size ∧
        Apart valuesAt (8 * nvalues) base size ∧ Apart rawAt rawSize valuesAt (8 * nvalues) then
      let o : DynState :=
        ⟨mem, l, allocAt valuesAt nvalues, nvalues, allocAt rawAt rawSize, rawSize, []⟩
      let slots := indexes.map fun (i : Nat) => base + i
      let (mem, slots) := bindLoop o (l.zip lookup) mem slots
      some { o with mem := eraseLoop base (vt.fields.zip indexes) mem, virtuals := [⟨vt, slots⟩] }
    else none

/-- `hl_obj_copy` of a dynamic object. -/
def hlObjCopy (o : DynState) (rawAt valuesAt : Int) : Option DynState :=
  if o.Fresh rawAt o.rawSize ∧ o.Fresh valuesAt (8 * o.nvalues) ∧
      Apart rawAt o.rawSize valuesAt (8 * o.nvalues) then
    let raw := allocAt rawAt o.rawSize
    let values := allocAt valuesAt o.nvalues
    some { o with
      mem := copyBytes (copyBytes o.mem raw o.raw o.rawSize) values o.values (8 * o.nvalues)
      raw, values, virtuals := [] }
  else none

/-- The loop of `hl_to_virtual` over the views that exist, and the new view without recasts. -/
def attach (o : DynState) (vt : VirtType) : DynState :=
  if o.virtuals.any fun v => v.t.id = vt.id then o
  else { o with virtuals := ⟨vt, vt.fields.map o.newSlot⟩ :: o.virtuals }

def writeSlot (o : DynState) (view : Nat) (hash : Int) (value : Nat → UInt8) : DynState :=
  match o.virtuals[view]? with
  | none => o
  | some v =>
    match v.t.find hash with
    | none => o
    | some vf =>
      let s := v.slots.getD vf.index 0
      if s = 0 then o else { o with mem := writeBytes o.mem s vf.t.width value }

def writeOutside (o : DynState) (mem : Memory) : DynState :=
  { o with mem := fun a =>
      if o.values ≤ a ∧ a < o.values + 8 * o.nvalues ∨ o.raw ≤ a ∧ a < o.raw + o.rawSize then o.mem a
      else mem a }

end DynState

abbrev ValueType := { t : HlTy // t.kind ≠ .hVoid }

inductive Op where
  | set (hash : Int) (t : ValueType) (newData : Int) (value : Nat → UInt8)
  | delete (hash : Int)
  | attach (vt : VirtType)
  | writeSlot (view : Nat) (hash : Int) (value : Nat → UInt8)
  | writeOutside (mem : Memory)

namespace DynState

def apply (o : DynState) : Op → DynState
  | .set hash t newData value => (o.setField hash t.1 newData value).1
  | .delete hash => o.deleteField hash
  | .attach vt => o.attach vt
  | .writeSlot view hash value => o.writeSlot view hash value
  | .writeOutside mem => o.writeOutside mem

variable (castFun : Nat → Bool)

def paramKind : HlTy → Option HlTypeKind
  | .param _ t => some t.kind
  | _ => none

/-- `should_recast`; `castFun` says which classes have a cast function. -/
def shouldRecast (t vt : HlTy) : Bool :=
  vt.kind = .hF64 && t.kind = .hI32 ||
  vt.kind = .hNull && paramKind vt = some t.kind ||
  vt.kind = .hNull && paramKind vt = some .hF64 && t.kind = .hI32 ||
  vt.kind = .hVirtual && t.kind = .hDynObj ||
  vt.kind = .hObj && t.kind = .hObj && (match vt with | .named _ id => castFun id | _ => false)

def needRecast (o : DynState) (vf : VField) : Bool :=
  o.virtuals.isEmpty && o.newSlot vf = 0 &&
    match o.find vf.hash with
    | some f => shouldRecast castFun f.t vf.t
    | none => false

/-- The bits of `need_recast`, a word of 64 that wider types share. -/
def recastBits (o : DynState) (vt : VirtType) : List Nat :=
  (vt.fields.zipIdx.filter fun (vf, _) => needRecast castFun o vf).map fun (_, i) => i % 64

/-- The cast of a field to the type a view has for it. It may run code of the program, which may
use the object in turn. There is no value when it raises an error. A view that is made meanwhile
recasts nothing, since it is not the first one. -/
structure Recast where
  meanwhile : List Op
  value : Option (Nat → UInt8)
  newData : Int

/-- The loop that recasts fields: each is set to the value the cast of its old one has, and the
loop stops where a cast or a set raises an error. -/
def recastLoop (bits : List Nat) (extraCheck : Bool) (cast : Nat → Recast) :
    List (VField × Nat) → DynState → DynState
  | [], o => o
  | (vf, i) :: rest, o =>
    if i % 64 ∈ bits ∧ ¬(extraCheck ∧ (o.find vf.hash).isNone) ∧ (vf.t.kind.isPtr ∨ vf.t.kind = .hF64) then
      let o := (cast i).meanwhile.foldl apply o
      match (cast i).value with
      | none => o
      | some value =>
        match o.setField vf.hash vf.t (cast i).newData value with
        | (o, true) => recastLoop bits extraCheck cast rest o
        | (o, false) => o
    else recastLoop bits extraCheck cast rest o

/-- `hl_to_virtual` on a dynamic object. -/
def hlToVirtual (o : DynState) (vt : VirtType) (cast : Nat → Recast) : DynState :=
  if o.virtuals.any fun v => v.t.id = vt.id then o
  else
    let bits := recastBits castFun o vt
    recastLoop bits (63 < vt.fields.length) cast vt.fields.zipIdx (o.attach vt)

end DynState

/-- What a program asks of an object: an operation, or a view that may recast fields. -/
inductive Request where
  | op (op : Op)
  | toVirtual (castFun : Nat → Bool) (vt : VirtType) (cast : Nat → DynState.Recast)

def DynState.serve (o : DynState) : Request → DynState
  | .op op => o.apply op
  | .toVirtual castFun vt cast => o.hlToVirtual castFun vt cast

/-- Every view an operation makes is of a type with the property. -/
def Op.Over (P : VirtType → Prop) : Op → Prop
  | .attach vt => P vt
  | _ => True

def Request.Over (P : VirtType → Prop) : Request → Prop
  | .op a => a.Over P
  | .toVirtual _ vt cast => P vt ∧ ∀ i, ∀ op ∈ (cast i).meanwhile, op.Over P

/-- The objects a program can have with virtual types that have a property: new ones, those a virtual with data of its
own becomes, copies, and what requests make of them. -/
inductive Reachable (P : VirtType → Prop) : DynState → Prop
  | alloc (mem : Memory) : Reachable P (DynState.hlAllocDynobj mem)
  | makeValue {vt : VirtType} {base rawAt valuesAt : Int} {mem : Memory} {o : DynState} (hvt : P vt)
      (h : DynState.hlVirtualMakeValue vt base mem rawAt valuesAt = some o) : Reachable P o
  | copy {o c : DynState} {rawAt valuesAt : Int} (ho : Reachable P o)
      (h : o.hlObjCopy rawAt valuesAt = some c) : Reachable P c
  | serve {o : DynState} (ho : Reachable P o) (r : Request) (hr : r.Over P) : Reachable P (o.serve r)

end DynObj

end HashLink
