import HashLink.Patch.Apply

/-!
What a refused patch leaves behind. Staging writes only entries that nothing uses yet and the
reserved fields it remembers, so the cleanup of a patch that was made for this module restores its
tables. The cleanup also clears the range of types the patch names, and it does so for a patch that
was never checked against the module's own type count; and it clears the slots of the globals that
were staged, in which another global may lie: one of a packed type takes no room of its own.
-/

namespace HashLink

open Transaction

/-- The module as a program sees it: the unused entries of its tables are left out, and so is the
failure a test asked for. -/
def HlModule.observe (m : HlModule) : HlModule :=
  { m with
    types := m.types.take m.ntypes
    globals := m.globals.take m.nglobals
    globalsIndexes := m.globalsIndexes.take m.nglobals
    functionNames := m.functionNames.take m.functions.length
    functionsTypes := m.functionsTypes.take m.slotCount
    patchFailureStage := 0 }

/-- What is seen of a module but for the memory of its globals. -/
def HlModule.tables (m : HlModule) : HlModule := { m.observe with globalsData := [] }

/-- `unstage_patch_object_fields` as an operation on the type arena. -/
def unstageTypes (staged : List PatchObjectFieldStage) (types : List HlType) : List HlType :=
  staged.foldr (fun stage types =>
    types.modify stage.type (HlType.setField · stage.field stage.previous)) types

theorem unstage_eq (staged : List PatchObjectFieldStage) (m : HlModule) :
    unstagePatchObjectFields staged m = { m with types := unstageTypes staged m.types } := by
  induction staged with
  | nil => rfl
  | cons stage staged ih =>
    have hcons : unstagePatchObjectFields (stage :: staged) m =
        (unstagePatchObjectFields staged m).setObjField stage.type stage.field stage.previous := rfl
    rw [hcons, ih]
    rfl

theorem take_modify {l l' : List HlType} {n i : Nat} (f : HlType → HlType)
    (h : l.take n = l'.take n) : (l.modify i f).take n = (l'.modify i f).take n := by
  apply List.ext_getElem?
  intro j
  have hj := congrArg (·[j]?) h
  simp only [List.getElem?_take] at hj ⊢
  split
  · rename_i hlt
    rw [if_pos hlt, if_pos hlt] at hj
    rw [List.getElem?_modify, List.getElem?_modify, hj]
  · rfl

theorem unstageTypes_take (staged : List PatchObjectFieldStage) {types types' : List HlType}
    {n : Nat} (h : types.take n = types'.take n) :
    (unstageTypes staged types).take n = (unstageTypes staged types').take n := by
  induction staged with
  | nil => exact h
  | cons stage staged ih => exact take_modify _ ih

variable {m : HlModule} {patch : HlPatch} {obj : HlTypeObj}

theorem setField_setField {t : HlType} {k : Nat} {field value : HlObjField} (hobj : t.obj? = some obj)
    (hfield : obj.fields[k]? = some field) :
    (t.setField k value).setField k field = t := by
  obtain ⟨kind, data, owner⟩ := t
  cases data with
  | obj o =>
    simp only [HlType.obj?, Option.some.injEq] at hobj
    subst hobj
    obtain ⟨hlt, hget⟩ := List.getElem?_eq_some_iff.mp hfield
    simp only [HlType.setField, List.set_set]
    rw [← hget, List.set_getElem_self]
  | null => simp [HlType.obj?] at hobj
  | fun_ args ret => simp [HlType.obj?] at hobj
  | virt fields => simp [HlType.obj?] at hobj
  | absName name => simp [HlType.obj?] at hobj
  | tparam t => simp [HlType.obj?] at hobj
  | tenum name constructs => simp [HlType.obj?] at hobj

theorem unstageTypes_stage (staged : List PatchObjectFieldStage) {types : List HlType} {type k : Nat}
    {field : HlObjField} (value : HlObjField) (lookup : List HlFieldLookup)
    (hobj : (types.getD type .zero).obj? = some obj) (hfield : obj.fields[k]? = some field) :
    unstageTypes (staged ++ [⟨type, k, field, lookup⟩])
      (types.modify type (HlType.setField · k value)) = unstageTypes staged types := by
  have hback : (types.modify type (HlType.setField · k value)).modify type
      (HlType.setField · k field) = types := by
    apply List.ext_getElem?
    intro j
    rw [List.getElem?_modify, List.getElem?_modify]
    cases hj : types[j]? with
    | none => rfl
    | some t =>
      by_cases heq : type = j
      · subst heq
        rw [List.getD_eq_getElem?_getD, hj, Option.getD_some] at hobj
        simp [setField_setField hobj hfield]
      · simp [heq]
  rw [unstageTypes, List.foldr_append]
  exact congrArg (unstageTypes staged) hback

/-- What the checks have established about a patch that gets as far as staging. -/
structure Fits (m : HlModule) (patch : HlPatch) : Prop where
  types : patch.baseTypeCount = m.ntypes
  added : ∀ a ∈ patch.addedFunctions, m.slotCount ≤ a.findex.toNat

theorem fits_of_checkPatch {env : PatchEnv} {result : PatchLayout × Nat}
    (h : checkPatch env m patch = .ok result) : Fits m patch := by
  simp only [checkPatch, except_bind_eq_ok, require_eq_ok] at h
  obtain ⟨_, -, _, -, _, -, _, hbase, _, -, _, -, _, -, size, -, _, -, layout, hlayout, -⟩ := h
  refine ⟨by simp_all, fun a ha => ?_⟩
  simp only [stagePatchLayout, except_bind_eq_ok, require_eq_ok] at hlayout
  obtain ⟨_, -, _, -, _, hadded, -⟩ := hlayout
  obtain ⟨i, hi⟩ := List.getElem?_of_mem ha
  have hslot := forEach_ok hadded hi
  simp only [checkAddedFunction, except_bind_eq_ok, require_eq_ok, decide_eq_true_eq] at hslot
  obtain ⟨_, hfindex, -⟩ := hslot
  omega

section Staging

variable {m : HlModule} {patch : HlPatch}

/-- The module with its reserved fields put back looks as it did before. -/
def Undoes (m : HlModule) (staged : List PatchObjectFieldStage) (m' : HlModule) : Prop :=
  (unstagePatchObjectFields staged m').tables = m.tables

structure Recoverable (m : HlModule) (s : PatchState) : Prop where
  undoes : Undoes m s.stagedFields s.module
  data : s.module.globalsData = m.globalsData

variable {staged : List PatchObjectFieldStage} {m' : HlModule}

theorem Undoes.ntypes (h : Undoes m staged m') : m'.ntypes = m.ntypes := by
  rw [Undoes, unstage_eq] at h
  have hcount := congrArg HlModule.ntypes h
  exact hcount

theorem Undoes.nglobals (h : Undoes m staged m') : m'.nglobals = m.nglobals := by
  rw [Undoes, unstage_eq] at h
  have hcount := congrArg HlModule.nglobals h
  exact hcount

theorem Undoes.slotCount (h : Undoes m staged m') : m'.slotCount = m.slotCount := by
  rw [Undoes, unstage_eq] at h
  have hcount := congrArg HlModule.slotCount h
  exact hcount

theorem Undoes.setType (h : Undoes m staged m') {k : Nat} (hk : m.ntypes ≤ k) (t : HlType) :
    Undoes m staged { m' with types := m'.types.set k t } := by
  have hn := h.ntypes
  have htake : (m'.types.set k t).take m'.ntypes = m'.types.take m'.ntypes :=
    List.take_set_of_le (by omega)
  rw [Undoes, unstage_eq] at h ⊢
  rw [← h]
  simp only [HlModule.tables, HlModule.observe, HlModule.slotCount]
  rw [unstageTypes_take staged htake]

theorem Undoes.setAdded (h : Undoes m staged m') {k slot : Nat} (hslot : m.slotCount ≤ slot)
    (name : Option (List UInt8)) (type : Option Nat) :
    Undoes m staged
      { m' with
        functionNames := m'.functionNames.set (m'.functions.length + k) name
        functionsTypes := m'.functionsTypes.set slot type } := by
  have hcount := h.slotCount
  rw [Undoes, unstage_eq] at h ⊢
  rw [← h]
  simp only [HlModule.tables, HlModule.observe, HlModule.slotCount] at hcount ⊢
  rw [List.take_set_of_le (by omega), List.take_set_of_le (by rw [hcount]; exact hslot)]

theorem Undoes.setGlobal (h : Undoes m staged m') (k : Nat) (global : Option Nat) (offset : Int)
    (data : List UInt8) :
    Undoes m staged
      { m' with
        globals := m'.globals.set (m'.nglobals + k) global
        globalsIndexes := m'.globalsIndexes.set (m'.nglobals + k) offset
        globalsData := data } := by
  rw [Undoes, unstage_eq] at h ⊢
  rw [← h]
  simp only [HlModule.tables, HlModule.observe, HlModule.slotCount]
  rw [List.take_set_of_le (by omega), List.take_set_of_le (by omega)]

theorem Undoes.stageField (h : Undoes m staged m') {type k : Nat} {field value : HlObjField}
    {lookup : List HlFieldLookup} (hobj : (m'.typeAt type).obj? = some obj)
    (hfield : obj.fields[k]? = some field) :
    Undoes m (staged ++ [⟨type, k, field, lookup⟩]) (m'.setObjField type k value) := by
  have htypes := unstageTypes_stage staged value lookup hobj hfield
  rw [Undoes, unstage_eq] at h ⊢
  rw [← h]
  simp only [HlModule.setObjField, htypes]

theorem undoes_injected (h : Undoes m staged m') (stage : Nat) :
    Undoes m staged { m' with patchFailureStage := stage } := by
  rw [Undoes, unstage_eq] at h ⊢
  rw [← h]
  rfl

theorem keeps_demand {P : PatchState → Prop} (ok : Bool) (error : String) :
    Keeps P (demand ok error) := keeps_check _

theorem keeps_inject (stage : Nat) : Keeps (Recoverable m) (injectPatchFailure stage) := by
  refine keeps_bind keeps_get fun s => keeps_ite (fun _ => ?_) fun _ => keeps_pure _
  refine keeps_bind (keeps_modify fun s hs => ?_) fun _ => keeps_throw _
  exact ⟨undoes_injected hs.undoes 0, hs.data⟩

theorem keeps_setType (hfits : Fits m patch) (i : Nat) (t : HlType) :
    Keeps (Recoverable m) (setType patch i t) := by
  refine keeps_modify fun s hs => ⟨hs.undoes.setType ?_ t, hs.data⟩
  have := hfits.types
  omega

theorem keeps_stagePatchTypes (hfits : Fits m patch) (env : PatchEnv) (ustrings : List (List UInt16)) :
    Keeps (Recoverable m) (stagePatchTypes env patch ustrings) := by
  refine keeps_bind (keeps_demand _ _) fun _ => keeps_eachIdx fun i src _ => ?_
  refine keeps_bind (keeps_setType hfits _ _) fun _ => ?_
  have hset := keeps_setType hfits (0 + i)
  split
  case h_1 => exact keeps_bind (keeps_demand _ _) fun _ => hset _
  case h_6 => exact keeps_bind (keeps_demand _ _) fun _ => hset _
  case h_7 => exact keeps_bind (keeps_demand _ _) fun _ => hset _
  case h_8 => exact keeps_bind (keeps_demand _ _) fun _ => hset _
  case h_9 => exact keeps_pure _
  all_goals exact hset _

theorem keeps_failObjectFields (error : String) :
    Keeps (Recoverable m) (failObjectFields error) := by
  refine keeps_bind (keeps_modify fun s hs => ⟨hs.undoes, ?_⟩) fun _ => keeps_throw _
  rw [unstage_eq]
  exact hs.data

theorem keeps_stagePatchObjectField (env : PatchEnv) (ustrings : List (List UInt16)) (i : Nat)
    (f : HlPatchObjectField) :
    Keeps (Recoverable m) (stagePatchObjectField env ustrings i f) := by
  refine keeps_get_bind fun s hs => ?_
  have hfail : ∀ error, Recoverable m (finalState (failObjectFields error) s) :=
    fun error => keeps_failObjectFields error s hs
  simp only
  split
  · exact hfail _
  · rename_i obj field hfield
    split
    · exact hfail _
    · split
      · exact hfail _
      · split
        · exact hfail _
        · refine ⟨?_, hs.data⟩
          obtain ⟨obj', hobj, hmap⟩ := Option.bind_eq_some_iff.mp hfield
          obtain ⟨field', hget, heq⟩ := Option.map_eq_some_iff.mp hmap
          cases heq
          exact hs.undoes.stageField hobj hget

theorem keeps_stagePatchObjectFields (env : PatchEnv) (ustrings : List (List UInt16)) :
    Keeps (Recoverable m) (stagePatchObjectFields env patch ustrings) :=
  keeps_bind (keeps_demand _ _) fun _ =>
    keeps_eachIdx fun _ f _ => keeps_stagePatchObjectField env ustrings _ f

theorem undoes_stageAdded (hfits : Fits m patch) (h : Undoes m staged m') :
    Undoes m staged (stageAddedFunctions patch m') :=
  foldIdx_keeps (Q := Undoes m staged) (fun _ _ _ ha h =>
    h.setAdded (hfits.added _ (List.mem_of_getElem? ha)) _ _) h

theorem undoes_unstageAdded (hfits : Fits m patch) (h : Undoes m staged m') :
    Undoes m staged (unstageAddedFunctions patch m') :=
  foldIdx_keeps (Q := Undoes m staged) (fun _ _ _ ha h =>
    h.setAdded (hfits.added _ (List.mem_of_getElem? ha)) _ _) h

theorem stageAdded_data (patch : HlPatch) (m' : HlModule) :
    (stageAddedFunctions patch m').globalsData = m'.globalsData :=
  foldIdx_keeps (Q := fun m'' : HlModule => m''.globalsData = m'.globalsData) (fun _ _ _ _ h => h) rfl

theorem stagePatchGlobals_undoes (patch : HlPatch) (h : Undoes m staged m') :
    Undoes m staged (stagePatchGlobals patch m') ∧
      (stagePatchGlobals patch m').globalsData = m'.globalsData :=
  foldIdx_keeps (f := stagePatchGlobal) (b := (m', m'.globalsSize))
    (Q := fun state => Undoes m staged state.1 ∧ state.1.globalsData = m'.globalsData)
    (fun _ _ _ _ hstate => ⟨hstate.1.setGlobal _ _ _ _, hstate.2⟩) ⟨h, rfl⟩

theorem undoes_unstageGlobals (patch : HlPatch) (h : Undoes m staged m') :
    Undoes m staged (unstagePatchGlobals patch m') :=
  foldIdx_keeps (Q := Undoes m staged) (fun _ _ _ _ h => h.setGlobal _ _ _ _) h

theorem linkPatchObjectType_undoes (hfits : Fits m patch) (env : PatchEnv) (h : Undoes m staged m')
    (i : Nat) (src : HlPatchType) :
    Undoes m staged (linkPatchObjectType env patch m' i src) ∧
      (linkPatchObjectType env patch m' i src).globalsData = m'.globalsData := by
  have hbase := hfits.types
  unfold linkPatchObjectType
  split
  · exact ⟨h.setType (by omega) _, rfl⟩
  · exact ⟨h.setType (by omega) _, rfl⟩
  · exact ⟨h, rfl⟩

theorem linkPatchObjectTypes_undoes (hfits : Fits m patch) (env : PatchEnv) (h : Undoes m staged m') :
    Undoes m staged (linkPatchObjectTypes env patch m') ∧
      (linkPatchObjectTypes env patch m').globalsData = m'.globalsData :=
  foldIdx_keeps (Q := fun m'' => Undoes m staged m'' ∧ m''.globalsData = m'.globalsData)
    (fun i src m'' _ hm'' => by
      obtain ⟨hundoes, hdata⟩ := linkPatchObjectType_undoes hfits env hm''.1 (0 + i) src
      exact ⟨hundoes, hdata.trans hm''.2⟩) ⟨h, rfl⟩

theorem keeps_stagePatch (hfits : Fits m patch) (env : PatchEnv) (layout : PatchLayout) :
    Keeps (Recoverable m) (stagePatch env patch layout) := by
  refine keeps_bind keeps_get fun _ => ?_
  refine keeps_bind (keeps_inject 1) fun _ => ?_
  refine keeps_bind (keeps_stagePatchTypes hfits env _) fun _ => ?_
  refine keeps_bind (keeps_stagePatchObjectFields env _) fun _ => ?_
  refine keeps_bind keeps_get fun _ => keeps_bind (keeps_check _) fun _ => ?_
  refine keeps_bind (keeps_inject 2) fun _ => ?_
  refine keeps_bind keeps_get fun _ => keeps_bind (keeps_check _) fun _ => ?_
  refine keeps_bind (keeps_modify fun s hs => ?_) fun _ => ?_
  · exact ⟨undoes_stageAdded hfits hs.undoes, (stageAdded_data patch s.module).trans hs.data⟩
  refine keeps_bind ?_ fun _ => ?_
  · refine keeps_ite (fun _ => keeps_pure _) fun _ => keeps_modify fun s hs => ?_
    obtain ⟨hundoes, hdata⟩ := stagePatchGlobals_undoes patch hs.undoes
    exact ⟨hundoes, hdata.trans hs.data⟩
  refine keeps_bind (keeps_modify fun s hs => ?_) fun _ => ?_
  · obtain ⟨hundoes, hdata⟩ := linkPatchObjectTypes_undoes hfits env hs.undoes
    exact ⟨hundoes, hdata.trans hs.data⟩
  refine keeps_bind (keeps_demand _ _) fun _ => ?_
  refine keeps_bind (keeps_check _) fun _ => keeps_bind (keeps_check _) fun _ => ?_
  refine keeps_bind (keeps_demand _ _) fun _ => keeps_bind (keeps_inject 3) fun _ => ?_
  refine keeps_bind (keeps_demand _ _) fun _ => keeps_bind ?_ fun _ => keeps_pure _
  exact keeps_ite (fun _ => keeps_pure _) fun _ => keeps_check _

end Staging

/-! ### The memory of the globals -/

/-- The cleanup of a patch clears a live type: the range of types the patch names fits the arena
and holds an entry in use that is not all zero. -/
def ClearsLiveType (m : HlModule) (patch : HlPatch) : Prop :=
  patch.baseTypeCount ≤ m.typesCapacity ∧ patch.types.length ≤ m.typesCapacity - patch.baseTypeCount ∧
    ∃ (i : Nat) (t : HlType), patch.baseTypeCount ≤ i ∧ i < patch.totalTypes ∧ i < m.ntypes ∧
      m.types[i]? = some t ∧ t ≠ .zero

theorem clearPatchTypes_take (h : ¬ClearsLiveType m patch) : (clearPatchTypes patch m).observe = m.observe := by
  unfold clearPatchTypes
  split
  · rename_i hfits
    simp only [HlModule.observe, HlModule.slotCount]
    congr 1
    apply List.ext_getElem?
    intro i
    rw [List.getElem?_take, List.getElem?_take]
    split
    · rename_i hlive
      rw [List.getElem?_mapIdx]
      cases hget : m.types[i]? with
      | none => rfl
      | some t =>
        rw [Option.map_some, Option.some.injEq]
        split
        · rename_i hrange
          by_contra hne
          exact h ⟨hfits.1, hfits.2, i, t, hrange.1, hrange.2, hlive, hget, fun heq =>
            hne heq.symm⟩
        · rfl
    · rfl
  · rfl

theorem failPatch_recovers {s : PatchState} (hfits : Fits m patch) (hs : Recoverable m s) :
    (failPatch patch s).tables = m.tables := by
  have hadded : Undoes m s.stagedFields
      (if s.stagedAdded then unstageAddedFunctions patch s.module else s.module) := by
    split
    · exact undoes_unstageAdded hfits hs.undoes
    · exact hs.undoes
  have hglobals : Undoes m s.stagedFields (if s.stagedGlobals then unstagePatchGlobals patch
          (if s.stagedAdded then unstageAddedFunctions patch s.module else s.module)
        else if s.stagedAdded then unstageAddedFunctions patch s.module else s.module) := by
    split
    · exact undoes_unstageGlobals patch hadded
    · exact hadded
  -- only entries past the live types are left to clear
  have hclear : ∀ m' : HlModule, m'.tables = m.tables → (clearPatchTypes patch m').tables = m.tables := by
    intro m' hm'
    have hn : m'.ntypes = m.ntypes := by
      have hcount := congrArg HlModule.ntypes hm'
      exact hcount
    rw [HlModule.tables, clearPatchTypes_take, ← HlModule.tables, hm']
    rintro ⟨-, -, i, t, hlow, -, hlive, -⟩
    have hbase := hfits.types
    omega
  exact hclear _ hglobals

theorem stagePatch_recoverable {env : PatchEnv} {layout : PatchLayout} {globalsSize : Nat}
    (hcheck : checkPatch env m patch = .ok (layout, globalsSize)) :
    Recoverable m (finalState (stagePatch env patch layout) (.start m)) :=
  keeps_stagePatch (fits_of_checkPatch hcheck) env layout (.start m) ⟨rfl, rfl⟩

/-- A process that never runs out of memory. -/
def idleEnv : PatchEnv where
  hashIntPrefix _ _ := 0
  hashFloatPrefix _ _ := 0
  hashStringPrefix _ _ := 0
  hashTypePrefix _ _ := 0
  hashGlobalPrefix _ _ := 0
  ustring _ := []
  hashGen _ := 0
  memory _ _ := true
  jitAlloc := true
  jitFunction _ := some 0
  jitPatchCode := some 0
  checkPatchGuards := none
  constant _ := []
  getObjRt _ _ := ⟨[], [], 0⟩

def patchedModule : HlModule where
  patchable := true
  revision := 1
  ints := []
  floats := []
  strings := []
  types := [.zero, ⟨.hRef, .tparam 0, true⟩, .zero]
  ntypes := 2
  globals := []
  globalsIndexes := []
  nglobals := 0
  npatchglobals := 0
  globalsData := []
  globalsSize := 0
  natives := []
  functions := []
  npatchfunctions := 0
  functionsCapacity := 0
  functionStableIds := []
  functionNames := []
  functionsIndexes := []
  functionsTypes := []
  functionsPtrs := []
  patchTargets := none
  patchOrigin := none
  patchOwners := []
  debugFiles := []
  patchFailureStage := 0

def stalePatch : HlPatch where
  baseRevision := 0
  revision := 1
  intPrefixHash := 0
  floatPrefixHash := 0
  stringPrefixHash := 0
  typePrefixHash := 0
  baseIntCount := 0
  ints := []
  baseFloatCount := 0
  floats := []
  baseStringCount := 0
  strings := []
  baseTypeCount := 1
  types := [{ tag := .hNull, parameter := 0 }]
  functions := [{ type := 0, stableId := 1, findex := 0, registers := [], instructions := [] }]
  addedFunctions := []
  debugFiles := []
  sourceSnapshots := []
  globalPrefixHash := 0
  baseGlobalCount := 0
  globals := []
  objectFields := []
  migrations := []
  guards := []

end HashLink
