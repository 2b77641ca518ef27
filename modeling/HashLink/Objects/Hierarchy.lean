import HashLink.Lib.DepthBound
import HashLink.Objects.Layout

/-!
`hl_get_obj_rt` and `hl_get_obj_proto`: what is built for a class when it is first used. The layout of the objects
is in `Objects/Layout`; here are the indexes that both functions use on the tables of functions, on the fields of
the hierarchy and on the arrays that they fill.

What a class needs before it can be built, said of its declaration and of those of its bases: which types it refers
to, which prototype indexes and names the hierarchy has, and which fields.
-/

namespace HashLink

open SortedTable

/-- An element of a C array, when the index is inside it. -/
def tableAt {α : Type} (l : List α) (i : Int) : Option α := if i < 0 then none else l[i.toNat]?

/-- A store into a C array, when the index is inside it. -/
def setAt {α : Type} (l : List α) (i : Int) (a : α) : Option (List α) :=
  if 0 ≤ i ∧ i < l.length then some (l.set i.toNat a) else none

def stringName : List UInt16 := [95, 95, 115, 116, 114, 105, 110, 103]

def compareName : List UInt16 := [95, 95, 99, 111, 109, 112, 97, 114, 101]

def castName : List UInt16 := [95, 95, 99, 97, 115, 116]

def getFieldName : List UInt16 := [95, 95, 103, 101, 116, 95, 102, 105, 101, 108, 100]

/-- `nargs` of a function type. -/
def HlType.nargs (t : HlType) : Nat :=
  match t.data with
  | .fun_ args _ => args.length
  | _ => 0

def HlModule.comparesDynamic (m : HlModule) (t : Nat) : Bool :=
  match (m.typeAt t).data with
  | .fun_ [_, arg] ret => (m.typeAt arg).kind = .hDyn && (m.typeAt ret).kind = .hI32
  | _ => false

def pairsOf : List Int → List (Int × Int)
  | a :: b :: l => (a, b) :: pairsOf l
  | _ => []

def HlTypeObj.bindingPairs (obj : HlTypeObj) : List (Int × Int) := pairsOf obj.bindings

/-- What `hl_get_obj_rt` finds out about a class: its layout, the fields of its hierarchy with the inherited ones
first, the lookups from its own to that of its last base, the fields that the hierarchy binds, the number of its
bindings and its function for comparisons. -/
structure ClassRt where
  rt : ObjRt
  fields : List HlObjField
  lookups : List (List HlFieldLookup)
  bound : List Int
  nbindings : Nat
  compareFun : Int

/-- What there is for the base of a class. -/
def ofSuper {α : Type} (values : Nat → Option α) (obj : HlTypeObj) : Option (Option α) :=
  match obj.super with
  | none => some none
  | some super => (values super).map some

def compareMethod (m : HlModule) (hash : List UInt16 → Int) (parentProtos : Int) (compareFun : Int)
    (proto : HlObjProto) : Option Int :=
  if overrides parentProtos proto then some compareFun
  else do
    let type ← tableAt m.functionsTypes proto.findex
    if proto.hashedName = hash compareName then
      let t ← type
      return if m.comparesDynamic t then proto.findex else compareFun
    else return compareFun

/-- `hl_get_obj_rt` of a class, with the layouts of the others. -/
def runtimeStep (m : HlModule) (hash : List UInt16 → Int) (runtime : Nat → Option ClassRt) (t : Nat) :
    Option ClassRt := do
  let obj ← (m.typeAt t).obj?
  let parent ← ofSuper runtime obj
  let rt ← layoutClass m (fun u => (runtime u).map (·.rt)) (m.typeAt t).kind obj (parent.map (·.rt))
  let compareFun ← obj.protos.foldlM (compareMethod m hash ((parent.map (·.rt.nproto)).getD 0)) 0
  let bound := (parent.map (·.bound)).getD []
  let fresh := obj.bindingPairs.filter fun b => b.1 ∉ bound
  return { rt
           fields := (parent.map (·.fields)).getD [] ++ obj.fields
           lookups := rt.lookup :: (parent.map (·.lookups)).getD []
           bound := bound ++ obj.bindingPairs.map Prod.fst
           nbindings := (parent.map (·.nbindings)).getD 0 + fresh.length
           compareFun }

/-- `hl_get_obj_rt`, with a bound on how deep it follows bases and packed structures. -/
def objRuntime (m : HlModule) (hash : List UInt16 → Int) : Nat → Nat → Option ClassRt :=
  DepthBound.eval (runtimeStep m hash)

/-- `hl_runtime_binding`. The closure of a function without dynamic arguments is allocated with the prototype. -/
structure ObjBinding where
  fid : Int
  mid : Int
  isStatic : Bool
  deriving DecidableEq, Repr

/-- What `hl_get_obj_proto` fills in. -/
structure ObjProto where
  vobjProto : List (Option Nat)
  methods : List (Option Nat)
  interfaces : List Nat
  bindings : List ObjBinding
  toStringFun : Option Nat
  compareFun : Option Nat
  castFun : Option Nat
  getFieldFun : Option Nat
  deriving DecidableEq, Repr

/-- `obj_resolve_field`. -/
def resolveField (lookups : List (List HlFieldLookup)) (hash : Int) : Option HlFieldLookup :=
  lookups.findSome? fun lookup => find HlFieldLookup.hashedName lookup hash

def protoSlot (m : HlModule) (slots : List (Option Nat)) (proto : HlObjProto) : Option (List (Option Nat)) :=
  if 0 ≤ proto.pindex then do
    let code ← tableAt m.functionsPtrs proto.findex
    setAt slots proto.pindex code
  else some slots

/-- One turn of the loop over the methods. An overriding method has the index of the one it overrides. -/
def protoMethod (m : HlModule) (lookups : List (List HlFieldLookup)) (parentProtos : Int)
    (state : List (Option Nat) × Nat) (proto : HlObjProto) : Option (List (Option Nat) × Nat) :=
  if proto.pindex = hlProtoTypedEntry then some state
  else if 0 ≤ proto.pindex ∧ proto.pindex < parentProtos then do
    let found ← resolveField lookups proto.hashedName
    let code ← tableAt m.functionsPtrs proto.findex
    let methods ← setAt state.1 (-found.fieldIndex - 1) code
    return (methods, state.2)
  else do
    let code ← tableAt m.functionsPtrs proto.findex
    let methods ← setAt state.1 state.2 code
    return (methods, state.2 + 1)

def bindField (m : HlModule) (fields : List HlObjField) (b : Int × Int) : Option ObjBinding := do
  let field ← tableAt fields b.1
  let _ ← tableAt m.functionsPtrs b.2
  let type ← tableAt m.functionsTypes b.2
  match (m.typeAt field.t).kind with
  | .hFun => do
      let t ← type
      return ⟨b.1, b.2, (m.typeAt field.t).nargs = (m.typeAt t).nargs⟩
  | .hDyn => return ⟨b.1, b.2, false⟩
  | _ => none

/-- One turn of the loop over the bindings, in an array of `capacity` entries. An inherited binding of the field is
replaced where it is. -/
def protoBinding (m : HlModule) (fields : List HlObjField) (inherited : List ObjBinding) (capacity : Nat)
    (bindings : List ObjBinding) (b : Int × Int) : Option (List ObjBinding) :=
  match inherited.findIdx? fun binding => binding.fid = b.1 with
  | some i => do
      let binding ← bindField m fields b
      return bindings.set i binding
  | none =>
    if bindings.length < capacity then do
      let binding ← bindField m fields b
      return bindings ++ [binding]
    else none

def namedMethod (lookups : List (List HlFieldLookup)) (methods : List (Option Nat)) (hash : Int) :
    Option (Option Nat) :=
  match resolveField lookups hash with
  | none => some none
  | some found => tableAt methods (-found.fieldIndex - 1)

/-- The method that compares, when the class has introduced one that `hl_get_obj_rt` has found. -/
def compareFunOf (c : ClassRt) (methods : List (Option Nat)) (hash : Int) : Option (Option Nat) :=
  if c.compareFun = 0 then some none else namedMethod c.lookups methods hash

/-- What a class takes over from its base: nothing when it has none. -/
structure InheritedProto where
  nproto : Int := 0
  vobjProto : List (Option Nat) := []
  lookups : List (List HlFieldLookup) := []
  methods : List (Option Nat) := []
  bindings : List ObjBinding := []
  getFieldFun : Option Nat := none

def InheritedProto.of : Option (ClassRt × ObjProto) → InheritedProto
  | none => {}
  | some (c, proto) =>
    { nproto := c.rt.nproto
      vobjProto := proto.vobjProto
      lookups := c.lookups
      methods := proto.methods
      bindings := proto.bindings
      getFieldFun := proto.getFieldFun }

/-- `hl_get_obj_proto` of a class, with what it takes over from its base. -/
def protoClass (m : HlModule) (hash : List UInt16 → Int) (c : ClassRt) (obj : HlTypeObj) (p : InheritedProto) :
    Option ObjProto := do
  let slots ← obj.protos.foldlM (protoSlot m)
    (p.vobjProto ++ List.replicate (c.rt.nproto.toNat - p.vobjProto.length) none)
  let methods ← obj.protos.foldlM (protoMethod m p.lookups p.nproto)
    (p.methods ++ List.replicate (c.rt.nmethods - p.methods.length) none, p.methods.length)
  let bindings ← obj.bindingPairs.foldlM (protoBinding m c.fields p.bindings c.nbindings) p.bindings
  let toStringFun ← namedMethod c.lookups methods.1 (hash stringName)
  let compareFun ← compareFunOf c methods.1 (hash compareName)
  let castFun ← namedMethod c.lookups methods.1 (hash castName)
  let getFieldFun ← namedMethod c.lookups methods.1 (hash getFieldName)
  return { vobjProto := slots
           methods := methods.1
           interfaces := (obj.fields.zipIdx.filter fun f => f.1.hashedName = 0).map Prod.snd
           bindings
           toStringFun
           compareFun
           castFun
           getFieldFun := getFieldFun.or p.getFieldFun }

/-- `hl_get_obj_proto`, with a bound on its depth and on that of `hl_get_obj_rt`. -/
def objProto (m : HlModule) (hash : List UInt16 → Int) (depth : Nat) : Nat → Nat → Option (ClassRt × ObjProto)
  | 0, _ => none
  | bases + 1, t => do
      let c ← objRuntime m hash depth t
      let obj ← (m.typeAt t).obj?
      let parent ← ofSuper (objProto m hash depth bases) obj
      let proto ← protoClass m hash c obj (.of parent)
      return (c, proto)

/-- `hl_init_virtual`: the lookup and the offsets of the fields. -/
structure VirtualLayout where
  lookup : List HlFieldLookup
  indexes : List Nat
  size : Nat
  deriving DecidableEq, Repr

/-- One turn of the loop of `hl_init_virtual`. -/
def virtualField (m : HlModule) (layout : VirtualLayout) (field : HlObjField) : VirtualLayout :=
  let kind := (m.typeAt field.t).kind
  let offset := layout.size + hlPadStruct layout.size kind
  { lookup := insert HlFieldLookup.hashedName layout.lookup ⟨field.hashedName, field.t, layout.indexes.length⟩
    indexes := layout.indexes ++ [offset]
    size := offset + kind.size }

/-- `hl_init_virtual`. The header has three words, and one word for each field. -/
def hlInitVirtual (m : HlModule) (fields : List HlObjField) : VirtualLayout :=
  fields.foldl (virtualField m) ⟨[], [], 3 * hlWSize + hlWSize * fields.length⟩

/-- A class refers to its base and to the structures it packs. -/
def HlModule.Needs (m : HlModule) (t u : Nat) : Prop :=
  ∃ obj, (m.typeAt t).obj? = some obj ∧ (obj.super = some u ∨
    ∃ f ∈ obj.fields, (m.typeAt f.t).kind = .hPacked ∧ (m.typeAt f.t).data = .tparam u)

/-- A class and its bases, up to the last one. -/
inductive Bases (m : HlModule) : Nat → List (Nat × HlTypeObj) → Prop
  | root {t : Nat} {obj : HlTypeObj} (hobj : (m.typeAt t).obj? = some obj) (hsuper : obj.super = none) :
      Bases m t [(t, obj)]
  | derived {t u : Nat} {obj : HlTypeObj} {base : List (Nat × HlTypeObj)} (hobj : (m.typeAt t).obj? = some obj)
      (hsuper : obj.super = some u) (rest : Bases m u base) : Bases m t ((t, obj) :: base)

/-- A structure with something in it: a class has the pointer to its type, and a field has a size unless its type is
void. -/
inductive Sized (m : HlModule) : Nat → Prop
  | object {t : Nat} {obj : HlTypeObj} (hobj : (m.typeAt t).obj? = some obj) (hsuper : obj.super = none)
      (hkind : (m.typeAt t).kind ≠ .hStruct) : Sized m t
  | field {t : Nat} {obj : HlTypeObj} {f : HlObjField} (hobj : (m.typeAt t).obj? = some obj) (hf : f ∈ obj.fields)
      (hvoid : (m.typeAt f.t).kind ≠ .hVoid) : Sized m t
  | base {t u : Nat} {obj : HlTypeObj} (hobj : (m.typeAt t).obj? = some obj) (hsuper : obj.super = some u)
      (rest : Sized m u) : Sized m t

def topProto : List (Nat × HlTypeObj) → Int
  | [] => 0
  | (_, obj) :: base => obj.protos.foldl (fun n p => max n (p.pindex + 1)) (topProto base)

def allFields : List (Nat × HlTypeObj) → List HlObjField
  | [] => []
  | (_, obj) :: base => allFields base ++ obj.fields

/-- The names that a class adds, in a table that `hl_lookup_insert` has filled: its fields that have a name, and the
methods that override none, which are marked. -/
def nameTable (protos : Int) (obj : HlTypeObj) : List (Int × Bool) :=
  (obj.protos.filter fun p => !overrides protos p).foldl
    (fun table p => insert Prod.fst table (p.hashedName, true))
    ((obj.fields.filter fun f => f.name ≠ []).foldl (fun table f => insert Prod.fst table (f.hashedName, false)) [])

/-- Whether a name is that of a method, where the hierarchy has it. -/
def resolves : List (Nat × HlTypeObj) → Int → Option Bool
  | [], _ => none
  | (_, obj) :: base, hash =>
    ((find Prod.fst (nameTable (topProto base) obj) hash).map Prod.snd).or (resolves base hash)

def slotMethod : List (Nat × HlTypeObj) → Int → Option HlObjProto
  | [], _ => none
  | (_, obj) :: base, k => (obj.protos.reverse.find? fun p => p.pindex = k).or (slotMethod base k)

variable {m : HlModule} {hash : List UInt16 → Int}

theorem Bases.unique {t : Nat} {chain chain' : List (Nat × HlTypeObj)} (h : Bases m t chain)
    (h' : Bases m t chain') : chain = chain' := by
  induction h generalizing chain' with
  | root hobj hsuper =>
    cases h' with
    | root hobj' =>
      cases hobj.symm.trans hobj'
      rfl
    | derived hobj' hsuper' =>
      cases hobj.symm.trans hobj'
      cases hsuper.symm.trans hsuper'
  | derived hobj hsuper rest ih =>
    cases h' with
    | root hobj' hsuper' =>
      cases hobj.symm.trans hobj'
      cases hsuper.symm.trans hsuper'
    | derived hobj' hsuper' rest' =>
      cases hobj.symm.trans hobj'
      cases hsuper.symm.trans hsuper'
      rw [ih rest']

theorem Bases.cons {t : Nat} {chain : List (Nat × HlTypeObj)} (h : Bases m t chain) :
    ∃ obj base, chain = (t, obj) :: base ∧ (m.typeAt t).obj? = some obj ∧
      ((obj.super = none ∧ base = []) ∨ ∃ u, obj.super = some u ∧ Bases m u base) := by
  cases h with
  | root hobj hsuper => exact ⟨_, [], rfl, hobj, .inl ⟨hsuper, rfl⟩⟩
  | derived hobj hsuper rest => exact ⟨_, _, rfl, hobj, .inr ⟨_, hsuper, rest⟩⟩

theorem topProto_nonneg (chain : List (Nat × HlTypeObj)) : 0 ≤ topProto chain := by
  have hfold : ∀ (protos : List HlObjProto) (n : Int), n ≤ protos.foldl (fun n p => max n (p.pindex + 1)) n := by
    intro protos
    induction protos with
    | nil => exact fun n => Int.le_refl n
    | cons p protos ih => exact fun n => (Int.le_max_left n _).trans (ih _)
  induction chain with
  | nil => exact Int.le_refl 0
  | cons c base ih => exact ih.trans (hfold c.2.protos (topProto base))

/-- What `hl_get_obj_rt` needs of a class: the structures it packs are not empty, and the methods it introduces have
entries in the table of types. -/
structure LayoutReady (m : HlModule) (hash : List UInt16 → Int) (obj : HlTypeObj) (base : List (Nat × HlTypeObj)) :
    Prop where
  packed : ∀ f ∈ obj.fields, (m.typeAt f.t).kind = .hPacked → ∃ u, (m.typeAt f.t).data = .tparam u ∧ Sized m u
  typed : ∀ p ∈ obj.protos, overrides (topProto base) p = false →
    ∃ type, tableAt m.functionsTypes p.findex = some type ∧ (p.hashedName = hash compareName → type ≠ none)

/-- The field of a binding is in the hierarchy, and it is dynamic or a function. -/
structure Bindable (m : HlModule) (chain : List (Nat × HlTypeObj)) (b : Int × Int) : Prop where
  field : ∃ f, tableAt (allFields chain) b.1 = some f ∧
    ((m.typeAt f.t).kind = .hDyn ∨ (m.typeAt f.t).kind = .hFun ∧ tableAt m.functionsTypes b.2 ≠ some none)
  typed : (tableAt m.functionsTypes b.2).isSome
  code : (tableAt m.functionsPtrs b.2).isSome

/-- What `hl_get_obj_proto` needs of a class. -/
structure ProtoReady (m : HlModule) (hash : List UInt16 → Int) (obj : HlTypeObj) (base : List (Nat × HlTypeObj))
    (t : Nat) : Prop where
  code : ∀ p ∈ obj.protos, p.pindex ≠ hlProtoTypedEntry → (tableAt m.functionsPtrs p.findex).isSome
  overriding : ∀ p ∈ obj.protos, 0 ≤ p.pindex → p.pindex < topProto base →
    resolves base p.hashedName = some true
  bindings : ∀ b ∈ obj.bindingPairs, Bindable m ((t, obj) :: base) b
  named : ∀ name ∈ [stringName, castName, getFieldName], resolves ((t, obj) :: base) (hash name) ≠ some false
  compares : obj.protos.foldlM (compareMethod m hash (topProto base)) 0 ≠ some 0 →
    resolves ((t, obj) :: base) (hash compareName) ≠ some false

end HashLink
