import HashLink.Patch.ObjectFields

/-!
`hl_get_obj_rt`: where the fields of a class are in its objects, and the lookup that finds them by
the hashes of their names. The lookup of a class has its own fields and the methods it introduces;
the fields it inherits are found through its parent.
-/

namespace HashLink

open SortedTable

/-- What `hl_get_obj_rt` computes of `hl_runtime_obj`. The size without the padding at the end is
kept, and the padding beside it. -/
structure ObjRt where
  lookup : List HlFieldLookup
  fieldsIndexes : List Int
  parentFields : Nat
  dataSize : Nat
  padSize : Nat
  largestField : Nat
  nproto : Int
  nmethods : Nat

/-- `rt->size`. -/
def ObjRt.size (rt : ObjRt) : Nat := rt.dataSize + rt.padSize

/-- The locals of the loop over the fields. -/
structure FieldLayout where
  size : Nat
  largest : Nat
  indexes : List Int
  lookup : List HlFieldLookup

/-- A field of the size `size` at the next offset, which is entered into the lookup when the field
has a name. -/
def FieldLayout.put (layout : FieldLayout) (field : HlObjField) (offset size largest : Nat) :
    FieldLayout where
  size := offset + size
  largest := max layout.largest largest
  indexes := layout.indexes ++ [(offset : Int)]
  lookup :=
    if field.name = [] then layout.lookup
    else insert HlFieldLookup.hashedName layout.lookup ⟨field.hashedName, field.t, (offset : Int)⟩

/-- One turn of the loop over the fields. `packed` is the layout of the structure a packed field
holds; a structure without a largest field stops the program, which divides by it. -/
def layoutField (m : HlModule) (packed : Nat → Option ObjRt) (layout : FieldLayout)
    (field : HlObjField) : Option FieldLayout :=
  let type := m.typeAt field.t
  if type.kind = .hPacked then
    match type.data with
    | .tparam t => do
        let rt ← packed t
        if rt.largestField = 0 then none
        else
          let pad := (rt.largestField - layout.size % rt.largestField) % rt.largestField
          some (layout.put field (layout.size + pad) rt.size rt.largestField)
    | _ => none
  else
    let size := type.kind.size
    some (layout.put field (layout.size + hlPadSize layout.size type.kind) size size)

/-- The locals of the loop over the methods. -/
structure MethodLayout where
  nproto : Int
  nmethods : Nat
  lookup : List HlFieldLookup

/-- Whether a method takes the place of an inherited one, or has no place at all. -/
def overrides (parentProtos : Int) (proto : HlObjProto) : Bool :=
  proto.pindex = hlProtoTypedEntry || 0 ≤ proto.pindex && proto.pindex < parentProtos

def layoutMethod (m : HlModule) (parentProtos : Int) (layout : MethodLayout) (proto : HlObjProto) :
    MethodLayout :=
  if overrides parentProtos proto then layout
  else
    { nproto := if layout.nproto ≤ proto.pindex then proto.pindex + 1 else layout.nproto
      nmethods := layout.nmethods + 1
      lookup := insert HlFieldLookup.hashedName layout.lookup
        ⟨proto.hashedName, (m.functionsTypes.getD proto.findex.toNat none).getD 0,
          -((layout.nmethods : Int) + 1)⟩ }

/-- The layout of a class whose parent has the layout `parent`. -/
def layoutClass (m : HlModule) (packed : Nat → Option ObjRt) (kind : HlTypeKind) (obj : HlTypeObj)
    (parent : Option ObjRt) : Option ObjRt := do
  let start := (parent.map (·.dataSize)).getD (if kind = .hStruct then 0 else hlWSize)
  let fields ← obj.fields.foldlM (layoutField m packed)
    ⟨start, (parent.map (·.largestField)).getD start, (parent.map (·.fieldsIndexes)).getD [], []⟩
  let protos := (parent.map (·.nproto)).getD 0
  let methods := obj.protos.foldl (layoutMethod m protos)
    ⟨protos, (parent.map (·.nmethods)).getD 0, fields.lookup⟩
  return { lookup := methods.lookup
           fieldsIndexes := fields.indexes
           parentFields := (parent.map (·.fieldsIndexes.length)).getD 0
           dataSize := fields.size
           padSize := (fields.largest - fields.size % fields.largest) % fields.largest
           largestField := fields.largest
           nproto := methods.nproto
           nmethods := methods.nmethods }

theorem size_pos {kind : HlTypeKind} (hvoid : kind ≠ .hVoid) (hpacked : kind ≠ .hPacked) :
    0 < kind.size := by
  cases kind <;> simp_all [HlTypeKind.size, hlWSize]

def NamesApart (f g : HlObjField) : Prop :=
  f.name ≠ [] → g.name ≠ [] → f.hashedName ≠ g.hashedName

end HashLink
