import HashLink.Objects.LayoutCorrect
import HashLink.Objects.ProtoBuilt
import HashLink.Objects.ValueMarks

/-!
The classes that a patch appends, and what its checks leave open before `hl_get_obj_rt` and `hl_get_obj_proto` can
build them. A base comes before the class, so that bases do not loop; a packed field may refer to any structure.
-/

namespace HashLink

open Relation Transaction ValueMarks

variable {env : PatchEnv} {m m' : HlModule} {patch : HlPatch} {layout : PatchLayout} {hash : List UInt16 → Int}

/-- The entry of an appended class as the patch describes it. -/
def IsStaged (env : PatchEnv) (ustrings : List (List UInt16)) (src : HlPatchType) (t : HlType) : Prop :=
  t.kind = src.tag ∧ ∃ rt globalValue,
    t.obj? = some { patchTypeObj env ustrings src.obj with rt := rt, globalValue := globalValue }

def HlPatch.ClassAt (patch : HlPatch) (t : Nat) (src : HlPatchType) : Prop :=
  ∃ i, t = patch.baseTypeCount + i ∧ patch.types[i]? = some src ∧ patchTypeIsClass src.tag = true

/-- The module that has the appended classes, and an entry in both tables of functions for every function of the
layout that the patch is compiled against. -/
structure Appended (env : PatchEnv) (m : HlModule) (patch : HlPatch) (layout : PatchLayout) (m' : HlModule) :
    Prop where
  classes : ∀ t src, patch.ClassAt t src → IsStaged env (combinedUstrings env m patch) src (m'.typeAt t)
  functions : ∀ findex, (layout.function findex).isSome → ∃ type code,
    tableAt m'.functionsTypes findex = some (some type) ∧ tableAt m'.functionsPtrs findex = some (some code)

/-- What the three checks give for an appended class. -/
structure Checked (m : HlModule) (patch : HlPatch) (layout : PatchLayout) (t : Nat) (src : HlPatchType) : Prop where
  base : 0 ≤ src.obj.super → src.obj.super.toNat < t ∧ patchTypeKind m patch src.obj.super.toNat = src.tag
  methods : ∀ p ∈ src.obj.protos, (layout.function p.findex).isSome
  bindings : ∀ b ∈ src.obj.bindings, (layout.function b.findex).isSome

theorem checked_of (htypes : validatePatchTypes m patch = .ok ())
    (hmethods : validatePatchObjectMethods patch layout = .ok ()) {t : Nat} {src : HlPatchType}
    (hclass : patch.ClassAt t src) : Checked m patch layout t src := by
  obtain ⟨i, rfl, hsrc, htag⟩ := hclass
  have hobject : validatePatchObjectType m patch (patch.baseTypeCount + i) src = .ok () := by
    obtain ⟨_, _, hall⟩ := except_bind_eq_ok.1 htypes
    have hone := forEach_ok hall hsrc
    rw [Nat.zero_add] at hone
    unfold validatePatchType at hone
    unfold patchTypeIsClass at htag
    rw [Bool.or_eq_true, decide_eq_true_eq, decide_eq_true_eq] at htag
    rcases htag with htag | htag
    · rw [htag] at hone
      exact hone
    · rw [htag] at hone
      exact hone
  have hone := forEach_ok hmethods hsrc
  rw [if_pos htag] at hone
  obtain ⟨_, hprotos, hbindings⟩ := except_bind_eq_ok.1 hone
  rw [require_eq_ok, List.all_eq_true] at hprotos hbindings
  refine ⟨fun hsuper => ?_, fun p hp => hprotos p hp, fun b hb => hbindings b hb⟩
  unfold validatePatchObjectType at hobject
  obtain ⟨_, _, hobject⟩ := except_bind_eq_ok.1 hobject
  have hvirtual : src.tag ≠ .hVirtual := by
    rintro heq
    rw [heq] at htag
    cases htag
  rw [if_neg hvirtual] at hobject
  obtain ⟨_, _, hobject⟩ := except_bind_eq_ok.1 hobject
  obtain ⟨_, hbase, _⟩ := except_bind_eq_ok.1 hobject
  rw [require_eq_ok, Bool.or_eq_true, Bool.and_eq_true, decide_eq_true_eq, decide_eq_true_eq,
    decide_eq_true_eq] at hbase
  rcases hbase with hneg | ⟨hlt, hkind⟩
  · omega
  · exact ⟨by omega, hkind⟩

/-- What the checks leave open of the methods and bindings of an appended class. -/
structure ProtoOpen (m : HlModule) (hash : List UInt16 → Int) (obj : HlTypeObj) (base : List (Nat × HlTypeObj))
    (t : Nat) : Prop where
  overriding : ∀ p ∈ obj.protos, 0 ≤ p.pindex → p.pindex < topProto base →
    resolves base p.hashedName = some true
  bindings : ∀ b ∈ obj.bindingPairs, ∃ f, tableAt (allFields ((t, obj) :: base)) b.1 = some f ∧
    ((m.typeAt f.t).kind = .hDyn ∨ (m.typeAt f.t).kind = .hFun)
  named : ∀ name ∈ [stringName, castName, getFieldName], resolves ((t, obj) :: base) (hash name) ≠ some false
  compares : obj.protos.foldlM (compareMethod m hash (topProto base)) 0 ≠ some 0 →
    resolves ((t, obj) :: base) (hash compareName) ≠ some false

/-- The same along a hierarchy, with all that a loaded class needs. -/
def ProtosOpen (m : HlModule) (hash : List UInt16 → Int) (patch : HlPatch) : List (Nat × HlTypeObj) → Prop
  | [] => True
  | (t, obj) :: base =>
    ((∃ src, patch.ClassAt t src) → ProtoOpen m hash obj base t) ∧
      ((∀ src, ¬patch.ClassAt t src) → ProtoReady m hash obj base t) ∧ ProtosOpen m hash patch base

/-- What an appended class needs besides what the checks give. -/
structure AppendedReady (m : HlModule) (hash : List UInt16 → Int) (patch : HlPatch) (t : Nat) : Prop where
  /-- No structure that it needs is packed in itself, directly or through others. -/
  acyclic : Acyclic m t
  /-- The loaded classes that it needs can be laid out. -/
  loaded : ∀ u, ReflTransGen m.Needs t u → (∀ src, ¬patch.ClassAt u src) → ReadyForLayout m hash u
  /-- No structure is packed that is empty. -/
  packed : ∀ u obj, ReflTransGen m.Needs t u → (m.typeAt u).obj? = some obj → ∀ f ∈ obj.fields,
    (m.typeAt f.t).kind = .hPacked → ∃ v, (m.typeAt f.t).data = .tparam v ∧ Sized m v
  protos : ∃ chain, Bases m t chain ∧ ProtosOpen m hash patch chain ∧ NoGaps m chain
  /-- The size that the class declares is an `int`. -/
  size : ∀ s, HasShape m t s → s.size < 2 ^ 31

/-- The class is built, and each of its sizes is an `int` and each mark bit inside its array. -/
def BuiltInInts (m : HlModule) (hash : List UInt16 → Int) (t : Nat) : Prop := Built m hash t ∧ LaidOut m t

theorem pairsOf_flatMap (l : List HlPatchTypeBinding) :
    pairsOf (l.flatMap fun b => [b.field, b.findex]) = l.map fun b => (b.field, b.findex) := by
  induction l with
  | nil => rfl
  | cons b l ih =>
    rw [List.flatMap_cons, List.map_cons, ← ih]
    rfl

theorem complete_of_isSome {depth t : Nat} (h : (objRuntime m hash depth t).isSome) : Complete m t := by
  induction depth generalizing t with
  | zero => cases h
  | succ depth ih =>
    obtain ⟨c, hc⟩ := Option.isSome_iff_exists.1 h
    obtain ⟨obj, parent, rt, compareFun, hobj, hparent, hrt, -⟩ := runtimeStep_eq_some.1 hc
    refine (complete_iff hobj).2 ⟨fun s hs => ?_, fun f hf hkind => ?_⟩
    · unfold ParentOf at hparent
      rw [hs] at hparent
      obtain ⟨c', hc', -⟩ := hparent
      exact ih (Option.isSome_iff_exists.2 ⟨c', hc'⟩)
    · have hpacked := layoutClass_isSome.1 (Option.isSome_iff_exists.2 ⟨rt, hrt⟩) f hf hkind
      obtain ⟨u, rt', hdata, hrt', hlargest⟩ := hpacked
      obtain ⟨c', hc', rfl⟩ := Option.map_eq_some_iff.1 hrt'
      obtain ⟨chain, hchain⟩ := objRuntime_describes hc'
      exact ⟨u, hdata, ih (Option.isSome_iff_exists.2 ⟨c', hc'⟩), hchain.sized.1 hlargest⟩

theorem builtInInts_iff {t : Nat} :
    BuiltInInts m hash t ↔ Built m hash t ∧ ∀ s, HasShape m t s → s.size < 2 ^ 31 := by
  refine and_congr_right fun hbuilt => ?_
  rw [laidOut_iff]
  refine and_iff_right ?_
  obtain ⟨hacyclic, hready, -⟩ := HashLink.built_iff.1 hbuilt
  obtain ⟨depth, h⟩ := layoutBuilt_iff.2 ⟨hacyclic, hready⟩
  exact complete_of_isSome h

section Ready

variable {t u : Nat} {src : HlPatchType} {obj : HlTypeObj} {base chain : List (Nat × HlTypeObj)}

theorem Appended.names_functions (happended : Appended env m patch layout m')
    (hchecked : ∀ t src, patch.ClassAt t src → Checked m patch layout t src) (hclass : patch.ClassAt t src)
    (hobj : (m'.typeAt t).obj? = some obj) :
    (∀ p ∈ obj.protos, ∃ type code, tableAt m'.functionsTypes p.findex = some (some type) ∧
        tableAt m'.functionsPtrs p.findex = some (some code)) ∧
      ∀ b ∈ obj.bindingPairs, ∃ type code, tableAt m'.functionsTypes b.2 = some (some type) ∧
        tableAt m'.functionsPtrs b.2 = some (some code) := by
  obtain ⟨-, rt, globalValue, hstaged⟩ := happended.classes t src hclass
  cases hobj.symm.trans hstaged
  have hcheck := hchecked t src hclass
  refine ⟨fun p hp => ?_, fun b hb => ?_⟩
  · obtain ⟨q, hq, rfl⟩ := List.mem_map.1 hp
    exact happended.functions q.findex (hcheck.methods q hq)
  · have hpairs : b ∈ pairsOf (src.obj.bindings.flatMap fun b => [b.field, b.findex]) := hb
    rw [pairsOf_flatMap] at hpairs
    obtain ⟨q, hq, rfl⟩ := List.mem_map.1 hpairs
    exact happended.functions q.findex (hcheck.bindings q hq)

theorem Appended.bases (happended : Appended env m patch layout m')
    (hchecked : ∀ t src, patch.ClassAt t src → Checked m patch layout t src)
    (hloaded : ∀ u, ReflTransGen m'.Needs t u → (∀ src, ¬patch.ClassAt u src) → ReadyForLayout m' hash u)
    (hu : ReflTransGen m'.Needs t u) (hclass : patch.ClassAt u src) :
    ∃ obj base, Bases m' u ((u, obj) :: base) := by
  induction u using Nat.strongRecOn generalizing src with
  | ind u ih =>
    obtain ⟨-, rt, globalValue, hobj⟩ := happended.classes u src hclass
    by_cases hneg : src.obj.super < 0
    · exact ⟨_, [], .root hobj (if_pos hneg)⟩
    · have hlt := ((hchecked u src hclass).base (by omega)).1
      have hneeds : m'.Needs u src.obj.super.toNat := ⟨_, hobj, .inl (if_neg hneg)⟩
      have hbase : ∃ base, Bases m' src.obj.super.toNat base := by
        by_cases hsuper : ∃ src', patch.ClassAt src.obj.super.toNat src'
        · obtain ⟨src', hsuper⟩ := hsuper
          obtain ⟨obj', base, hbases⟩ := ih _ hlt (hu.tail hneeds) hsuper
          exact ⟨_, hbases⟩
        · obtain ⟨obj', base, hbases, -⟩ :=
            hloaded _ (hu.tail hneeds) fun src' hsrc' => hsuper ⟨src', hsrc'⟩
          exact ⟨_, hbases⟩
      obtain ⟨base, hbases⟩ := hbase
      exact ⟨_, base, .derived hobj (if_neg hneg) hbases⟩

theorem Appended.protosReady_iff (happended : Appended env m patch layout m')
    (hchecked : ∀ t src, patch.ClassAt t src → Checked m patch layout t src) (hbases : Bases m' t chain) :
    ProtosReady m' hash chain ↔ ProtosOpen m' hash patch chain := by
  have hclass : ∀ {t : Nat} {obj : HlTypeObj} {base : List (Nat × HlTypeObj)},
      (m'.typeAt t).obj? = some obj → (ProtoReady m' hash obj base t ↔
        ((∃ src, patch.ClassAt t src) → ProtoOpen m' hash obj base t) ∧
          ((∀ src, ¬patch.ClassAt t src) → ProtoReady m' hash obj base t)) := by
    intro t obj base hobj
    constructor
    · refine fun h => ⟨fun _ => ⟨h.overriding, fun b hb => ?_, h.named, h.compares⟩, fun _ => h⟩
      obtain ⟨f, hf, hkind⟩ := (h.bindings b hb).field
      exact ⟨f, hf, hkind.imp_right And.left⟩
    · rintro ⟨hopen, hready⟩
      by_cases hsome : ∃ src, patch.ClassAt t src
      · have h := hopen hsome
        obtain ⟨src, hsrc⟩ := hsome
        obtain ⟨hprotos, hbindings⟩ := happended.names_functions hchecked hsrc hobj
        refine ⟨fun p hp _ => ?_, h.overriding, fun b hb => ?_, h.named, h.compares⟩
        · obtain ⟨type, code, -, hcode⟩ := hprotos p hp
          rw [hcode]
          rfl
        · obtain ⟨type, code, htype, hcode⟩ := hbindings b hb
          obtain ⟨f, hf, hkind⟩ := h.bindings b hb
          refine ⟨⟨f, hf, hkind.imp_right fun hfun => ⟨hfun, by rw [htype]; simp⟩⟩, ?_, ?_⟩
          · rw [htype]
            rfl
          · rw [hcode]
            rfl
      · exact hready fun src hsrc => hsome ⟨src, hsrc⟩
  induction hbases with
  | root hobj hsuper => exact (and_congr_left' (hclass hobj)).trans and_assoc
  | derived hobj hsuper rest ih => exact (and_congr (hclass hobj) ih).trans and_assoc

/-- After the checks, an appended class can be built exactly when no structure is packed in itself or empty, the
prototype indexes of its hierarchy leave no gap, its overriding methods are named after methods, its bindings name
fields of the hierarchy that are dynamic or functions, no field has the name of a method that the runtime calls, its
size is an `int`, and the loaded classes that it needs can be built. -/
theorem Appended.built_iff (happended : Appended env m patch layout m')
    (hchecked : ∀ t src, patch.ClassAt t src → Checked m patch layout t src) :
    BuiltInInts m' hash t ↔ AppendedReady m' hash patch t := by
  rw [builtInInts_iff, HashLink.built_iff]
  constructor
  · rintro ⟨⟨hacyclic, hready, chain, hbases, hprotos, hgaps⟩, hsize⟩
    refine ⟨hacyclic, fun u hu _ => hready u hu, fun u obj hu hobj => ?_,
      ⟨chain, hbases, (happended.protosReady_iff hchecked hbases).1 hprotos, hgaps⟩, hsize⟩
    obtain ⟨obj', base, hbases', hlayout⟩ := hready u hu
    obtain ⟨obj'', base', heq, hobj', -⟩ := hbases'.cons
    cases heq
    cases hobj.symm.trans hobj'
    exact hlayout.packed
  · rintro ⟨hacyclic, hloaded, hpacked, ⟨chain, hbases, hprotos, hgaps⟩, hsize⟩
    refine ⟨⟨hacyclic, fun u hu => ?_, chain, hbases, (happended.protosReady_iff hchecked hbases).2 hprotos, hgaps⟩,
      hsize⟩
    by_cases hsome : ∃ src, patch.ClassAt u src
    · obtain ⟨src, hsrc⟩ := hsome
      obtain ⟨obj, base, hbases'⟩ := happended.bases hchecked hloaded hu hsrc
      obtain ⟨obj', base', heq, hobj, -⟩ := hbases'.cons
      cases heq
      refine ⟨obj, base, hbases', hpacked u obj hu hobj, fun p hp _ => ?_⟩
      obtain ⟨type, code, htype, -⟩ := (happended.names_functions hchecked hsrc hobj).1 p hp
      exact ⟨some type, htype, fun _ => by simp⟩
    · exact hloaded u hu fun src hsrc => hsome ⟨src, hsrc⟩

end Ready

/-- Every field of a virtual has an offset, where it fits in the size, and its name leads to an index in range. -/
structure VirtualBuilt (m : HlModule) (fields : List HlObjField) (built : VirtualLayout) : Prop where
  count : built.indexes.length = fields.length
  fits : ∀ (i : Nat) (field : HlObjField) (offset : Nat), fields[i]? = some field → built.indexes[i]? = some offset →
    offset + (m.typeAt field.t).kind.size ≤ built.size
  named : ∀ f ∈ fields, ∃ entry ∈ built.lookup, entry.hashedName = f.hashedName
  range : ∀ entry ∈ built.lookup, 0 ≤ entry.fieldIndex ∧ entry.fieldIndex < fields.length

theorem VirtualBuilt.snoc {fields : List HlObjField} {built : VirtualLayout} (h : VirtualBuilt m fields built)
    (field : HlObjField) : VirtualBuilt m (fields ++ [field]) (virtualField m built field) := by
  refine ⟨?_, fun i f offset hf hoffset => ?_, fun f hf => ?_, fun entry hentry => ?_⟩
  · simp only [virtualField, List.length_append, List.length_singleton, h.count]
  · simp only [virtualField] at hoffset ⊢
    rcases Nat.lt_trichotomy i fields.length with hlt | rfl | hgt
    · rw [List.getElem?_append_left hlt] at hf
      rw [List.getElem?_append_left (by rw [h.count]; exact hlt)] at hoffset
      have := h.fits i f offset hf hoffset
      omega
    · rw [List.getElem?_concat_length] at hf
      rw [← h.count, List.getElem?_concat_length] at hoffset
      cases hf
      cases hoffset
      exact Nat.le_refl _
    · rw [List.getElem?_eq_none (by rw [List.length_append, List.length_singleton]; omega)] at hf
      cases hf
  · rcases List.mem_append.1 hf with hf | hf
    · obtain ⟨entry, hentry, hname⟩ := h.named f hf
      exact ⟨entry, SortedTable.mem_insert.2 (.inr hentry), hname⟩
    · cases List.mem_singleton.1 hf
      exact ⟨_, SortedTable.mem_insert.2 (.inl rfl), rfl⟩
  · rw [List.length_append, List.length_singleton]
    rcases SortedTable.mem_insert.1 hentry with rfl | hentry
    · dsimp only
      rw [h.count]
      omega
    · have := h.range entry hentry
      omega

theorem hlInitVirtual_built (m : HlModule) (fields : List HlObjField) :
    VirtualBuilt m fields (hlInitVirtual m fields) := by
  have hloop : ∀ (rest done : List HlObjField) (built : VirtualLayout), VirtualBuilt m done built →
      VirtualBuilt m (done ++ rest) (rest.foldl (virtualField m) built) := by
    intro rest
    induction rest with
    | nil =>
      intro done built h
      rw [List.append_nil]
      exact h
    | cons field rest ih =>
      intro done built h
      rw [List.append_cons]
      exact ih _ _ (h.snoc field)
  exact hloop fields [] _ ⟨rfl, nofun, nofun, nofun⟩

/-- The virtual is built, its size is an `int` and each mark bit inside its array. -/
def VirtualInInts (m : HlModule) (fields : List HlObjField) : Prop :=
  VirtualBuilt m fields (hlInitVirtual m fields) ∧ (virtualMarks m fields).isSome

/-- What the checks leave open of a virtual: its size, and a packed field at its end, which takes no room. -/
structure VirtualReady (m : HlModule) (fields : List HlObjField) : Prop where
  size : valueSize (virtualHeader fields) (fieldKinds m fields) + (hlWSize - 1) < 2 ^ 31
  pointer : ∀ (k : Nat) (kind : HlTypeKind) (o : Nat), (fieldKinds m fields)[k]? = some kind →
    (valueOffsets (virtualHeader fields) (fieldKinds m fields))[k]? = some o → kind.isPtr = true →
    o / hlWSize / 32 < units (valueSize (virtualHeader fields) (fieldKinds m fields))

theorem virtualInInts_iff (m : HlModule) (fields : List HlObjField) :
    VirtualInInts m fields ↔ VirtualReady m fields := by
  have hpos := units_header m fields
  obtain ⟨hindexes, hsize⟩ := hlInitVirtual_eq m fields
  have hspec := markFields_spec m (fields.zip (hlInitVirtual m fields).indexes)
    (List.set (List.replicate (units (valueSize (virtualHeader fields) (fieldKinds m fields))) 0) 0 6)
  have hlength : hlMarkSize (hlInitVirtual m fields).size =
      4 * units (valueSize (virtualHeader fields) (fieldKinds m fields)) := by
    rw [hsize, hlMarkSize_eq]
  unfold VirtualInInts virtualMarks
  dsimp only
  rw [and_iff_right (hlInitVirtual_built m fields), hlength, Nat.mul_div_cancel_left _ (by decide),
    if_neg (by omega : ¬4 * units (valueSize (virtualHeader fields) (fieldKinds m fields)) = 0), hsize]
  rw [List.length_set, List.length_replicate, hindexes] at hspec
  rw [hindexes]
  constructor
  · intro h
    split at h
    · cases h
    · next hint =>
      obtain ⟨mark, hmark⟩ := Option.isSome_iff_exists.1 h
      exact ⟨Nat.lt_of_not_le hint, (mem_fields_iff fun kind o => kind.isPtr = true → _).1 (hspec.2 mark hmark).2⟩
  · intro h
    rw [if_neg (Nat.not_le.2 h.size)]
    obtain ⟨mark, hmark, -⟩ := hspec.1 ((mem_fields_iff fun kind o => kind.isPtr = true → _).2 h.pointer)
    exact Option.isSome_iff_exists.2 ⟨mark, hmark⟩

/-- When the runtime can build the types that a patch appends. -/
theorem appended_types_built (htypes : validatePatchTypes m patch = .ok ())
    (hmethods : validatePatchObjectMethods patch layout = .ok ()) (happended : Appended env m patch layout m') :
    (∀ t src, patch.ClassAt t src → (BuiltInInts m' env.hashGen t ↔ AppendedReady m' env.hashGen patch t)) ∧
      ∀ src ∈ patch.types, src.tag = .hVirtual →
        (VirtualInInts m' (patchTypeFields env (combinedUstrings env m patch) src.obj) ↔
          VirtualReady m' (patchTypeFields env (combinedUstrings env m patch) src.obj)) :=
  ⟨fun _ _ _ => happended.built_iff fun _ _ hclass => checked_of htypes hmethods hclass,
    fun _ _ _ => virtualInInts_iff m' _⟩

def callingModule : HlModule :=
  { patchedModule with
    types := [⟨.hFun, .fun_ [] 1, false⟩, ⟨.hI32, .null, false⟩, .zero, .zero]
    ntypes := 2
    functions := [⟨0, 0⟩]
    functionsCapacity := 1
    functionStableIds := [7]
    functionNames := [none]
    functionsIndexes := [0]
    functionsTypes := [some 0]
    functionsPtrs := [some 64]
    patchOwners := [none] }

/-- Names are hashed as `hl_hash_gen` does for names as short as this. -/
def shortNamesEnv : PatchEnv :=
  { idleEnv with
    ustring := fun s => s.map UInt8.toUInt16
    hashGen := fun name => name.foldl (fun h c => 223 * h + (c.toNat : Int)) 0 % 0x1FFFFF7B }

/-- A patch with the strings `a` and `b` that appends these types. -/
def appendingPatch (types : List HlPatchType) : HlPatch :=
  { stalePatch with baseTypeCount := 2, types, strings := [[97], [98]], functions := [] }

def callingLayout : PatchLayout := ⟨[⟨0, 0⟩], [0]⟩

def classWithMethod : HlPatchType :=
  { tag := .hObj, obj := { name := 0, fields := [⟨0, 1⟩], protos := [⟨1, 0, 0⟩] } }

def structInItself : List HlPatchType :=
  [{ tag := .hStruct, obj := { name := 0, fields := [⟨1, 3⟩] } }, { tag := .hPacked, parameter := 2 }]

def appendTypes (patch : HlPatch) (types : List HlType) : HlModule :=
  { callingModule with
    types := callingModule.types.take 2 ++ types
    ntypes := 2 + types.length
    strings := callingModule.strings ++ patch.strings }

theorem calling_functions {m : HlModule} (htypes : m.functionsTypes = [some 0]) (hptrs : m.functionsPtrs = [some 64])
    (findex : Int) (hsome : (callingLayout.function findex).isSome) : ∃ type code,
      tableAt m.functionsTypes findex = some (some type) ∧ tableAt m.functionsPtrs findex = some (some code) := by
  have hzero : findex = 0 := by
    unfold PatchLayout.function at hsome
    split at hsome
    case isTrue => cases hsome
    case isFalse h =>
      have : (callingLayout.indexes.length : Int) = 1 := rfl
      omega
  rw [hzero, htypes, hptrs]
  exact ⟨0, 64, rfl, rfl⟩

theorem class_with_method_built : ∃ m', Appended shortNamesEnv callingModule (appendingPatch [classWithMethod])
    callingLayout m' ∧ BuiltInInts m' shortNamesEnv.hashGen 2 := by
  let patch := appendingPatch [classWithMethod]
  let obj := patchTypeObj shortNamesEnv (combinedUstrings shortNamesEnv callingModule patch) classWithMethod.obj
  let m' := appendTypes patch [⟨.hObj, .obj obj, false⟩]
  have happended : Appended shortNamesEnv callingModule patch callingLayout m' := by
    refine ⟨?_, calling_functions rfl rfl⟩
    rintro t src ⟨i, rfl, hsrc, -⟩
    match i, hsrc with
    | 0, hsrc =>
      cases hsrc
      exact ⟨rfl, _, _, rfl⟩
  have hclass : patch.ClassAt 2 classWithMethod := ⟨0, rfl, rfl, rfl⟩
  have hobj : (m'.typeAt 2).obj? = some obj := rfl
  have hneeds : ∀ u, ¬m'.Needs 2 u := by
    rintro u ⟨obj', hobj', hu⟩
    cases hobj.symm.trans hobj'
    rcases hu with hu | ⟨f, hf, hkind, -⟩
    · cases hu
    · cases List.mem_singleton.1 hf
      cases hkind
  have honly : ∀ u, ReflTransGen m'.Needs 2 u → u = 2 := by
    intro u hu
    rcases hu.cases_head with rfl | ⟨v, hv, -⟩
    · rfl
    · exact absurd hv (hneeds v)
  have htypes : validatePatchTypes callingModule patch = .ok () := rfl
  have hmethods : validatePatchObjectMethods patch callingLayout = .ok () := rfl
  refine ⟨m', happended, ((appended_types_built htypes hmethods happended).1 2 classWithMethod hclass).2 ?_⟩
  refine ⟨fun u hu htrans => ?_, fun u hu hnone => ?_, fun u obj' hu hobj' f hf hkind => ?_,
    ⟨[(2, obj)], .root hobj rfl, ⟨fun _ => ?_, fun hnone => absurd hclass (hnone _), trivial⟩, fun k hk hlt => ?_⟩,
    ?_⟩
  · cases honly u hu
    obtain ⟨v, hv, -⟩ := TransGen.head'_iff.1 htrans
    exact hneeds v hv
  · cases honly u hu
    exact absurd hclass (hnone _)
  · cases honly u hu
    cases hobj.symm.trans hobj'
    cases List.mem_singleton.1 hf
    cases hkind
  · exact ⟨by decide, nofun, by decide, by decide⟩
  · have hzero : k = 0 := by
      have : topProto [(2, obj)] = 1 := rfl
      omega
    rw [hzero]
    exact ⟨_, 64, rfl, rfl⟩
  · rintro s ⟨d, hs⟩
    have hshape : classShape m' 1 2 = some ⟨8, [⟨4, 4⟩]⟩ := rfl
    cases (shapeStep_uses m').unique hs hshape
    decide

/-- The runtime follows a structure that is packed in itself without end. -/
theorem struct_in_itself_loops : validatePatchTypes callingModule (appendingPatch structInItself) = .ok () ∧
    validatePatchObjectMethods (appendingPatch structInItself) callingLayout = .ok () ∧
    ∃ m' src, Appended shortNamesEnv callingModule (appendingPatch structInItself) callingLayout m' ∧
      (appendingPatch structInItself).ClassAt 2 src ∧
      (∀ depth, objRuntime m' shortNamesEnv.hashGen depth 2 = none) ∧ ¬Built m' shortNamesEnv.hashGen 2 := by
  let patch := appendingPatch structInItself
  let src : HlPatchType := { tag := .hStruct, obj := { name := 0, fields := [⟨1, 3⟩] } }
  let obj := patchTypeObj shortNamesEnv (combinedUstrings shortNamesEnv callingModule patch) src.obj
  let m' := appendTypes patch [⟨.hStruct, .obj obj, false⟩, ⟨.hPacked, .tparam 2, false⟩]
  refine ⟨rfl, rfl, m', src, ⟨?_, calling_functions rfl rfl⟩, ⟨0, rfl, rfl, rfl⟩, ?_⟩
  · rintro t src ⟨i, rfl, hsrc, htag⟩
    match i, hsrc with
    | 0, hsrc =>
      cases hsrc
      exact ⟨rfl, _, _, rfl⟩
    | 1, hsrc =>
      cases hsrc
      cases htag
  · have hloop : TransGen m'.Needs 2 2 :=
      .single ⟨obj, rfl, .inr ⟨_, List.mem_singleton.2 rfl, rfl, rfl⟩⟩
    have hlayout : ¬LayoutBuilt m' shortNamesEnv.hashGen 2 := fun h =>
      (layoutBuilt_iff.1 h).1 2 .refl hloop
    refine ⟨fun depth => ?_, fun h => (HashLink.built_iff.1 h).1 2 .refl hloop⟩
    cases hruntime : objRuntime m' shortNamesEnv.hashGen depth 2 with
    | none => rfl
    | some c => exact absurd ⟨depth, Option.isSome_iff_exists.2 ⟨c, hruntime⟩⟩ hlayout

end HashLink
