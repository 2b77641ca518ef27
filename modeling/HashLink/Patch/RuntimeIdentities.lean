import HashLink.Patch.Atomicity
import HashLink.Patch.Readers
import HashLink.Patch.Runtime
import HashLink.Patch.Staging
import Mathlib.Data.List.Nodup

/-!
The table of stable ids and the function tables of the module stay in step. The runtime extends the
one and the module the other, each in its own loop over the added functions; between them stands
everything that can fail.
-/

namespace HashLink

open Transaction

/-! ### The function tables while a patch is staged -/

structure FunctionsView where
  functions : List HlFunction
  indexes : List Int
  stableIds : List Int
  natives : List Nat
  capacity : Nat

def HlModule.functionsView (m : HlModule) : FunctionsView :=
  ⟨m.functions, m.functionsIndexes, m.functionStableIds, m.natives, m.functionsCapacity⟩

/-- The function tables are those of `m`. -/
def SameFunctions (m : HlModule) (s : PatchState) : Prop :=
  s.module.functionsView = m.functionsView

variable {m m' : HlModule} {patch : HlPatch}

theorem keeps_functions {f : HlModule → HlModule} (h : ∀ k, (f k).functionsView = k.functionsView) :
    Keeps (SameFunctions m) (modifyModule f) :=
  keeps_modify fun s hs => (h s.module).trans hs

theorem keeps_functions_inject (stage : Nat) :
    Keeps (SameFunctions m) (injectPatchFailure stage) :=
  keeps_bind keeps_get fun _ => keeps_ite
    (fun _ => keeps_bind (keeps_functions fun _ => rfl) fun _ => keeps_throw _)
    fun _ => keeps_pure _

theorem keeps_functions_stagePatchTypes (env : PatchEnv) (ustrings : List (List UInt16)) :
    Keeps (SameFunctions m) (stagePatchTypes env patch ustrings) := by
  have hset : ∀ i t, Keeps (SameFunctions m) (setType patch i t) := fun i t =>
    keeps_functions fun _ => rfl
  refine keeps_bind (keeps_demand _ _) fun _ => keeps_eachIdx fun i src _ => ?_
  refine keeps_bind (hset _ _) fun _ => ?_
  split
  case h_1 => exact keeps_bind (keeps_demand _ _) fun _ => hset _ _
  case h_6 => exact keeps_bind (keeps_demand _ _) fun _ => hset _ _
  case h_7 => exact keeps_bind (keeps_demand _ _) fun _ => hset _ _
  case h_8 => exact keeps_bind (keeps_demand _ _) fun _ => hset _ _
  case h_9 => exact keeps_pure _
  all_goals exact hset _ _

theorem unstagePatchObjectFields_functions (staged : List PatchObjectFieldStage) (m : HlModule) :
    (unstagePatchObjectFields staged m).functionsView = m.functionsView := by
  induction staged with
  | nil => rfl
  | cons stage rest ih => exact ih

theorem keeps_functions_stagePatchObjectFields (env : PatchEnv) (ustrings : List (List UInt16)) :
    Keeps (SameFunctions m) (stagePatchObjectFields env patch ustrings) := by
  have hfail : ∀ error, Keeps (SameFunctions m) (failObjectFields error) := fun error =>
    keeps_bind (keeps_modify fun s hs => (unstagePatchObjectFields_functions _ _).trans hs)
      fun _ => keeps_throw _
  refine keeps_bind (keeps_demand _ _) fun _ => keeps_eachIdx fun i f _ => ?_
  refine keeps_get_bind fun s hs => ?_
  simp only
  split
  · exact hfail _ s hs
  · refine keeps_ite (fun _ => hfail _) (fun _ => keeps_ite (fun _ => hfail _) fun _ =>
      keeps_ite (fun _ => hfail _) fun _ => ?_) s hs
    intro t _
    exact hs

theorem keeps_functions_stagePatch (env : PatchEnv) (layout : PatchLayout) :
    Keeps (SameFunctions m) (stagePatch env patch layout) := by
  refine keeps_bind keeps_get fun _ => ?_
  refine keeps_bind (keeps_functions_inject 1) fun _ => ?_
  refine keeps_bind (keeps_functions_stagePatchTypes env _) fun _ => ?_
  refine keeps_bind (keeps_functions_stagePatchObjectFields env _) fun _ => ?_
  refine keeps_bind keeps_get fun _ => keeps_bind (keeps_check _) fun _ => ?_
  refine keeps_bind (keeps_functions_inject 2) fun _ => ?_
  refine keeps_bind keeps_get fun _ => keeps_bind (keeps_check _) fun _ => ?_
  refine keeps_bind (keeps_modify fun s hs => ?_) fun _ => ?_
  · exact foldIdx_keeps (Q := fun k : HlModule => k.functionsView = m.functionsView) (fun _ _ _ _ h => h) hs
  refine keeps_bind ?_ fun _ => ?_
  · refine keeps_ite (fun _ => keeps_pure _) fun _ => keeps_modify fun s hs => ?_
    exact foldIdx_keeps (Q := fun k : HlModule × Nat => k.1.functionsView = m.functionsView)
      (fun _ _ _ _ h => h) hs
  refine keeps_bind (keeps_functions fun k => ?_) fun _ => ?_
  · refine foldIdx_keeps (Q := fun k' : HlModule => k'.functionsView = k.functionsView)
      (fun i src k' _ h => ?_) rfl
    unfold linkPatchObjectType
    split <;> exact h
  refine keeps_bind (keeps_demand _ _) fun _ => ?_
  refine keeps_bind (keeps_check _) fun _ => keeps_bind (keeps_check _) fun _ => ?_
  refine keeps_bind (keeps_demand _ _) fun _ => keeps_bind (keeps_functions_inject 3) fun _ => ?_
  refine keeps_bind (keeps_demand _ _) fun _ => keeps_bind ?_ fun _ => keeps_pure _
  exact keeps_ite (fun _ => keeps_pure _) fun _ => keeps_check _

theorem failPatch_functions (patch : HlPatch) (s : PatchState) :
    (failPatch patch s).functionsView = s.module.functionsView := by
  have hadded : ∀ k : HlModule, (unstageAddedFunctions patch k).functionsView = k.functionsView :=
    fun k => foldIdx_keeps (Q := fun k' : HlModule => k'.functionsView = k.functionsView)
      (fun _ _ _ _ h => h) rfl
  have hglobals : ∀ k : HlModule, (unstagePatchGlobals patch k).functionsView = k.functionsView :=
    fun k => foldIdx_keeps (Q := fun k' : HlModule => k'.functionsView = k.functionsView)
      (fun _ _ _ _ h => h) rfl
  have htypes : ∀ k : HlModule, (clearPatchTypes patch k).functionsView = k.functionsView := by
    intro k
    unfold clearPatchTypes
    split <;> rfl
  unfold failPatch
  simp only
  rw [htypes, unstagePatchObjectFields_functions]
  split <;> split <;> simp only [hadded, hglobals]

namespace FunctionsView

/-- Slots in use: `module_slot_count`. -/
def slotCount (v : FunctionsView) : Nat := v.functions.length + v.natives.length

/-- One turn of `publish_added_functions`. -/
def publish (v : FunctionsView) (a : HlPatchAddedFunction) : FunctionsView :=
  { v with
    functions := v.functions ++ [⟨a.findex, a.type.toNat⟩]
    stableIds := v.stableIds.set v.functions.length a.stableId
    indexes := v.indexes.set a.findex.toNat (v.functions.length : Int) }

/-- The tables have the room the module reserves for added functions. -/
structure Roomy (v : FunctionsView) : Prop where
  functions : v.functions.length ≤ v.capacity
  stableIds : v.stableIds.length = v.capacity
  indexes : v.capacity + v.natives.length ≤ v.indexes.length

/-- `slot` is the slot of function `j`: the function has it for its own, and `functions_indexes`
leads from it to the function. -/
structure SlotOf (v : FunctionsView) (slot : Int) (j : Nat) : Prop where
  nonneg : 0 ≤ slot
  used : slot < v.slotCount
  index : v.indexes[slot.toNat]? = some (j : Int)
  function : ∃ f, v.functions[j]? = some f ∧ f.findex = slot

variable {v : FunctionsView} {a : HlPatchAddedFunction}

theorem slotCount_publish : (v.publish a).slotCount = v.slotCount + 1 := by
  simp only [slotCount, publish, List.length_append, List.length_singleton]
  omega

theorem Roomy.publish (h : v.Roomy) (hroom : v.functions.length < v.capacity) :
    (v.publish a).Roomy where
  functions := by
    simp only [FunctionsView.publish, List.length_append, List.length_singleton]
    exact hroom
  stableIds := (List.length_set ..).trans h.stableIds
  indexes := by
    simp only [FunctionsView.publish, List.length_set]
    exact h.indexes

theorem SlotOf.publish {slot : Int} {j : Nat} (h : v.SlotOf slot j)
    (hnext : a.findex = v.slotCount) : (v.publish a).SlotOf slot j := by
  obtain ⟨f, hf, hslot⟩ := h.function
  have hused := h.used
  have hnonneg := h.nonneg
  refine ⟨h.nonneg, ?_, ?_, f, ?_, hslot⟩
  · rw [slotCount_publish]
    omega
  · show (v.indexes.set a.findex.toNat _)[slot.toNat]? = _
    rw [List.getElem?_set_ne (by omega)]
    exact h.index
  · show (v.functions ++ _)[j]? = _
    rw [List.getElem?_append_left (List.getElem?_eq_some_iff.mp hf).1]
    exact hf

theorem slotOf_published (h : v.Roomy) (hroom : v.functions.length < v.capacity)
    (hnext : a.findex = v.slotCount) : (v.publish a).SlotOf a.findex v.functions.length := by
  have hindexes := h.indexes
  have hcount : v.slotCount = v.functions.length + v.natives.length := rfl
  refine ⟨by omega, ?_, ?_, _, List.getElem?_concat_length, rfl⟩
  · rw [slotCount_publish]
    omega
  · show (v.indexes.set a.findex.toNat _)[a.findex.toNat]? = _
    exact List.getElem?_set_self (by omega)

/-- What publishing the functions of a patch makes of the tables. -/
structure Published (v : FunctionsView) (added : List HlPatchAddedFunction) (v' : FunctionsView) :
    Prop where
  roomy : v'.Roomy
  count : v'.functions.length = v.functions.length + added.length
  fresh : ∀ a ∈ added, (v.slotCount : Int) ≤ a.findex
  kept : ∀ slot j, v.SlotOf slot j → v'.SlotOf slot j
  keptIds : ∀ j, j < v.functions.length → v'.stableIds[j]? = v.stableIds[j]?
  added : ∀ (i : Nat) (a : HlPatchAddedFunction), added[i]? = some a →
    v'.SlotOf a.findex (v.functions.length + i) ∧ v'.stableIds[v.functions.length + i]? = some a.stableId

theorem published (h : v.Roomy) {added : List HlPatchAddedFunction}
    (hroom : v.functions.length + added.length ≤ v.capacity)
    (hnext : ∀ (i : Nat) (a : HlPatchAddedFunction), added[i]? = some a → a.findex = (v.slotCount + i : Nat)) :
    v.Published added (added.foldl publish v) := by
  have hfresh : ∀ a ∈ added, (v.slotCount : Int) ≤ a.findex := by
    intro a ha
    obtain ⟨i, hi⟩ := List.mem_iff_getElem?.mp ha
    have hslot := hnext i a hi
    omega
  induction added generalizing v with
  | nil => exact ⟨h, rfl, hfresh, fun _ _ hslot => hslot, fun _ _ => rfl, nofun⟩
  | cons a rest ih =>
    have hlength : (v.publish a).functions.length = v.functions.length + 1 :=
      List.length_append
    have hhead : a.findex = v.slotCount := hnext 0 a rfl
    rw [List.length_cons] at hroom
    have hrest := ih (v := v.publish a) (h.publish (by omega)) (by rw [hlength]; show _ ≤ v.capacity; omega)
      (fun i b hb => by
        rw [slotCount_publish, hnext (i + 1) b (by simpa using hb)]
        omega)
      (fun b hb => by
        obtain ⟨i, hi⟩ := List.mem_iff_getElem?.mp hb
        have hslot := hnext (i + 1) b (by simpa using hi)
        rw [slotCount_publish]
        omega)
    refine ⟨hrest.roomy, ?_, hfresh, fun slot j hslot => hrest.kept slot j
      (hslot.publish hhead), fun j hj => ?_, fun i b hb => ?_⟩
    · rw [List.foldl_cons, hrest.count, hlength, List.length_cons]
      omega
    · rw [List.foldl_cons, hrest.keptIds j (by omega)]
      exact List.getElem?_set_ne (by omega)
    · cases i with
      | zero =>
        cases hb
        refine ⟨hrest.kept _ _ (slotOf_published h (by omega) hhead), ?_⟩
        rw [List.foldl_cons]
        refine (hrest.keptIds _ (by omega)).trans ?_
        exact List.getElem?_set_self (by rw [h.stableIds]; omega)
      | succ i =>
        have hlast := hrest.added i b (by simpa using hb)
        rw [hlength, show v.functions.length + 1 + i = v.functions.length + (i + 1) by omega]
          at hlast
        exact hlast

end FunctionsView

theorem commitPatchObjectFields_functions (staged : List PatchObjectFieldStage) (m : HlModule) :
    (commitPatchObjectFields staged m).functionsView = m.functionsView := by
  unfold commitPatchObjectFields
  exact foldl_keeps (g := HlModule.functionsView) (fun _ _ => by rfl) staged m

theorem publishAddedFunctions_functions (patch : HlPatch) (m : HlModule) :
    (publishAddedFunctions patch m).functionsView =
      patch.addedFunctions.foldl FunctionsView.publish m.functionsView := by
  unfold publishAddedFunctions
  induction patch.addedFunctions generalizing m with
  | nil => rfl
  | cons a rest ih => exact ih _

theorem commitPatch_functions (env : PatchEnv) (patch : HlPatch) (size code : Nat)
    (offsets : List Nat) (s : PatchState) :
    (commitPatch env patch size code offsets s).functionsView =
      patch.addedFunctions.foldl FunctionsView.publish s.module.functionsView := by
  have hfold : ∀ {w w' : FunctionsView}, w = w' → patch.addedFunctions.foldl FunctionsView.publish w =
      patch.addedFunctions.foldl FunctionsView.publish w' := fun h => by rw [h]
  refine (publishAddedFunctions_functions patch _).trans (hfold ?_)
  refine (foldl_keeps (g := HlModule.functionsView) (fun k f => ?_) _ _).trans ?_
  · show (redirectSlot k f.1.findex.toNat (code + f.2)).functionsView = k.functionsView
    unfold redirectSlot
    split <;> rfl
  refine (commitPatchObjectFields_functions _ _).trans ?_
  refine foldIdx_keeps (Q := fun k : HlModule => k.functionsView = s.module.functionsView)
    (fun i global k _ h => ?_) rfl
  simp only
  split
  · exact h
  · exact h

/-! ### What applying a patch does to the tables -/

variable {env : PatchEnv} {layout : PatchLayout}

theorem stagePatch_functions {s : PatchState} (h : finalState (stagePatch env patch layout) (.start m) = s) :
    s.module.functionsView = m.functionsView := by
  have hkeeps : SameFunctions m (finalState (stagePatch env patch layout) (.start m)) :=
    keeps_functions_stagePatch env layout (.start m) rfl
  rw [h] at hkeeps
  exact hkeeps

theorem refused_functions {error : String} (h : hlModuleApplyPatch env m patch = (m', some error)) :
    m'.functionsView = m.functionsView := by
  unfold hlModuleApplyPatch at h
  split at h
  · cases h
    exact failPatch_functions patch _
  case h_2 layout size hcheck =>
    split at h
    case h_1 e s hrun =>
      cases h
      have hstopped : finalState (stagePatch env patch layout) (.start m) = s := by
        rw [finalState, hrun]
      exact (failPatch_functions patch s).trans (stagePatch_functions hstopped)
    case h_2 => cases h

theorem stagePatchLayout_added (h : stagePatchLayout env m patch = .ok layout) :
    m.functions.length + patch.addedFunctions.length ≤ m.functionsCapacity ∧
      ∀ (i : Nat) (a : HlPatchAddedFunction), patch.addedFunctions[i]? = some a →
        a.findex = (m.slotCount + i : Nat) := by
  obtain ⟨_, -, h⟩ := except_bind_eq_ok.mp h
  obtain ⟨_, hroom, h⟩ := except_bind_eq_ok.mp h
  obtain ⟨_, hadded, -⟩ := except_bind_eq_ok.mp h
  refine ⟨of_decide_eq_true (require_eq_ok.mp hroom), fun i a ha => ?_⟩
  have hone := forEach_ok hadded ha
  rw [Nat.zero_add] at hone
  obtain ⟨_, hslot, -⟩ := except_bind_eq_ok.mp hone
  have hslot' := of_decide_eq_true (require_eq_ok.mp hslot)
  rw [hslot']
  omega

theorem checkPatch_layout {size : Nat} (h : checkPatch env m patch = .ok (layout, size)) :
    stagePatchLayout env m patch = .ok layout := by
  simp only [checkPatch, except_bind_eq_ok] at h
  obtain ⟨_, -, _, -, _, -, _, -, _, -, _, -, _, -, _, -, _, -, layout', hlayout, h⟩ := h
  obtain ⟨_, -, _, -, _, -, _, -, _, -, _, -, h⟩ := h
  cases h
  exact hlayout

theorem taken_functions (hroomy : m.functionsView.Roomy) (h : hlModuleApplyPatch env m patch = (m', none)) :
    m.functionsView.Published patch.addedFunctions m'.functionsView := by
  obtain ⟨layout, size, code, offsets, s, hcheck, hrun, rfl⟩ := applied_steps h
  obtain ⟨hroom, hnext⟩ := stagePatchLayout_added (checkPatch_layout hcheck)
  have hstaged : finalState (stagePatch env patch layout) (.start m) = s := by
    rw [finalState, hrun]
  rw [commitPatch_functions, stagePatch_functions hstaged]
  exact FunctionsView.published hroomy hroom hnext

/-- The table of stable ids and the module's tables agree: no stable id and no slot is there twice,
and every entry has the slot of a function. The entries from `loaded` on are those of added
functions, which the module lists under the same stable id. -/
structure HlRuntimeModule.InStep (loaded : Nat) (runtime : HlRuntimeModule) : Prop where
  roomy : runtime.module.functionsView.Roomy
  ids : (runtime.identities.map (·.stableId)).Nodup
  slots : (runtime.identities.map (·.slot)).Nodup
  entries : ∀ e ∈ runtime.identities, ∃ j, runtime.module.functionsView.SlotOf e.slot j
  added : ∀ (k : Nat) (e : RuntimeIdentity), loaded ≤ k → runtime.identities[k]? = some e →
    ∃ j, runtime.module.functionsView.SlotOf e.slot j ∧ runtime.module.functionStableIds[j]? = some e.stableId
  count : loaded ≤ runtime.identities.length

variable {runtime runtime' : HlRuntimeModule} {loaded : Nat}

theorem HlRuntimeModule.InStep.of_eq (h : runtime.InStep loaded)
    (hview : runtime'.module.functionsView = runtime.module.functionsView)
    (hidentities : runtime'.identities = runtime.identities) : runtime'.InStep loaded := by
  have hids : runtime'.module.functionStableIds = runtime.module.functionStableIds :=
    congrArg FunctionsView.stableIds hview
  refine ⟨hview ▸ h.roomy, hidentities ▸ h.ids, hidentities ▸ h.slots, ?_, ?_, hidentities ▸ h.count⟩
  · rw [hview, hidentities]
    exact h.entries
  · rw [hview, hidentities, hids]
    exact h.added

theorem FunctionsView.SlotOf.lt_functions {v : FunctionsView} {slot : Int} {j : Nat}
    (h : v.SlotOf slot j) : j < v.functions.length := by
  obtain ⟨f, hf, -⟩ := h.function
  exact (List.getElem?_eq_some_iff.mp hf).1

theorem HlRuntimeModule.InStep.resolve (h : runtime.InStep loaded) {e : RuntimeIdentity}
    (he : e ∈ runtime.identities) : resolveStableId runtime e.stableId = e.slot := by
  unfold resolveStableId
  cases hfind : runtime.identities.find? fun e' => e'.stableId = e.stableId with
  | none =>
    have hnone := List.find?_eq_none.mp hfind e he
    simp at hnone
  | some e' =>
    have hid : e'.stableId = e.stableId := by simpa using List.find?_some hfind
    have hsame : e' = e :=
      List.inj_on_of_nodup_map h.ids (List.mem_of_find?_eq_some hfind) he hid
    rw [hsame]
    rfl

theorem resolvePatch_added {file : Hlp.HlPatchFile} (h : resolvePatch runtime file = some patch) :
    patch.addedFunctions = file.patch.addedFunctions := by
  obtain ⟨functions, -, h⟩ := Option.bind_eq_some_iff.mp h
  obtain ⟨migrations, -, h⟩ := Option.bind_eq_some_iff.mp h
  obtain ⟨guards, -, h⟩ := Option.bind_eq_some_iff.mp h
  cases h
  rfl

/-- A patch that comes through has its added functions as they were read, and none of their stable
ids is in the table. -/
theorem preparePatch_added {env : RuntimeEnv} {file : Hlp.HlPatchFile}
    (h : preparePatch env runtime file = .ok patch) :
    patch.addedFunctions = file.patch.addedFunctions ∧
      ∀ a ∈ patch.addedFunctions, resolveStableId runtime a.stableId < 0 := by
  unfold preparePatch at h
  dsimp only at h
  by_cases hid : runtime.moduleId ≠ file.moduleId
  · rw [if_pos hid] at h
    cases h
  by_cases hknown : file.patch.addedFunctions.any fun a => 0 ≤ resolveStableId runtime a.stableId
  · rw [if_neg hid, if_pos hknown] at h
    cases h
  rw [if_neg hid, if_neg hknown] at h
  by_cases hmemory : !file.patch.addedFunctions.isEmpty && !(env.stableIdsMemory && env.slotsMemory)
  · rw [if_pos hmemory] at h
    cases h
  rw [if_neg hmemory] at h
  cases hresolve : resolvePatch runtime file with
  | none =>
    rw [hresolve] at h
    cases h
  | some patch' =>
    rw [hresolve] at h
    cases h
    have hadded := resolvePatch_added hresolve
    refine ⟨hadded, fun a ha => ?_⟩
    rw [hadded] at ha
    by_contra hslot
    exact hknown (List.any_eq_true.mpr ⟨a, ha, decide_eq_true (by omega)⟩)

theorem HlRuntimeModule.InStep.unknown (h : runtime.InStep loaded) {stableId : Int}
    (hunknown : resolveStableId runtime stableId < 0) :
    stableId ∉ runtime.identities.map (·.stableId) := by
  intro hmem
  obtain ⟨e, he, rfl⟩ := List.mem_map.mp hmem
  obtain ⟨j, hslot⟩ := h.entries e he
  have hnonneg := hslot.nonneg
  rw [h.resolve he] at hunknown
  omega

/-- The table after a patch was taken: the new entries have stable ids that did not resolve and
slots that were not in use. -/
theorem HlRuntimeModule.InStep.extend (h : runtime.InStep loaded)
    {added : List HlPatchAddedFunction}
    (hpublished : runtime.module.functionsView.Published added runtime'.module.functionsView)
    (hidentities : runtime'.identities = runtime.identities ++ added.map (·.identity))
    (hapart : added.Pairwise Hlp.AddedApart)
    (hfresh : ∀ a ∈ added, resolveStableId runtime a.stableId < 0) :
    runtime'.InStep loaded := by
  have hnew : ∀ (i : Nat) (a : HlPatchAddedFunction), added[i]? = some a →
      ∃ j, runtime'.module.functionsView.SlotOf a.identity.slot j ∧
        runtime'.module.functionStableIds[j]? = some a.identity.stableId :=
    fun i a ha => ⟨_, hpublished.added i a ha⟩
  have hids : (added.map fun a => a.identity.stableId).Nodup :=
    List.pairwise_map.mpr (hapart.imp fun hab => hab.1)
  have hslots : (added.map fun a => a.identity.slot).Nodup :=
    List.pairwise_map.mpr (hapart.imp fun hab => hab.2)
  refine ⟨hpublished.roomy, ?_, ?_, ?_, ?_, ?_⟩
  · rw [hidentities, List.map_append, List.map_map]
    refine List.nodup_append.mpr ⟨h.ids, hids, fun id hid id' hid' heq => ?_⟩
    obtain ⟨a, ha, rfl⟩ := List.mem_map.mp hid'
    have hsame : id = a.stableId := heq
    exact h.unknown (hfresh a ha) (hsame ▸ hid)
  · rw [hidentities, List.map_append, List.map_map]
    refine List.nodup_append.mpr ⟨h.slots, hslots, fun slot hslot slot' hslot' heq => ?_⟩
    obtain ⟨e, he, rfl⟩ := List.mem_map.mp hslot
    obtain ⟨a, ha, rfl⟩ := List.mem_map.mp hslot'
    obtain ⟨j, hj⟩ := h.entries e he
    have hused := hj.used
    have hfree := hpublished.fresh a ha
    have hsame : e.slot = a.findex := heq
    omega
  · intro e he
    rw [hidentities] at he
    rcases List.mem_append.mp he with he | he
    · obtain ⟨j, hj⟩ := h.entries e he
      exact ⟨j, hpublished.kept _ _ hj⟩
    · obtain ⟨a, ha, rfl⟩ := List.mem_map.mp he
      obtain ⟨i, hi⟩ := List.mem_iff_getElem?.mp ha
      obtain ⟨j, hj, -⟩ := hnew i a hi
      exact ⟨j, hj⟩
  · intro k e hk he
    rw [hidentities] at he
    by_cases hold : k < runtime.identities.length
    · rw [List.getElem?_append_left hold] at he
      obtain ⟨j, hj, hid⟩ := h.added k e hk he
      refine ⟨j, hpublished.kept _ _ hj, ?_⟩
      exact (hpublished.keptIds j hj.lt_functions).trans hid
    · rw [List.getElem?_append_right (by omega), List.getElem?_map] at he
      obtain ⟨a, ha, rfl⟩ := Option.map_eq_some_iff.mp he
      exact hnew _ a ha
  · rw [hidentities, List.length_append]
    have hcount := h.count
    omega

theorem HlRuntimeModule.InStep.apply (h : runtime.InStep loaded) {env : RuntimeEnv}
    {bytes : List UInt8} {status : HlRuntimeStatus}
    (hrun : hlRuntimeModuleApplyHlp env runtime bytes = some (runtime', status)) :
    runtime'.InStep loaded ∧ runtime.identities <+: runtime'.identities ∧
      (status ≠ .ok → status ≠ .migrationFailed → runtime'.identities = runtime.identities) := by
  have hsame : ∀ k : HlRuntimeModule, k.module.functionsView = runtime.module.functionsView →
      k.identities = runtime.identities → ∀ status' : HlRuntimeStatus,
      k.InStep loaded ∧ runtime.identities <+: k.identities ∧
        (status' ≠ .ok → status' ≠ .migrationFailed → k.identities = runtime.identities) :=
    fun k hview hidentities status' => ⟨h.of_eq hview hidentities,
      hidentities ▸ List.prefix_refl _, fun _ _ => hidentities⟩
  unfold hlRuntimeModuleApplyHlp at hrun
  split at hrun
  · cases hrun
    exact hsame _ rfl rfl _
  dsimp only at hrun
  split at hrun
  · cases hrun
  · cases hrun
    refine hsame _ ?_ ?_ _ <;> rfl
  case h_3 file hread =>
    split at hrun
    · cases hrun
      refine hsame _ ?_ ?_ _ <;> rfl
    case h_2 patch hprepared =>
      obtain ⟨hadded, hfresh⟩ := preparePatch_added hprepared
      have hapart := (Hlp.hlPatchRead_unrepeated hread).added
      rw [← hadded] at hapart
      split at hrun
      case h_1 m hmodule =>
        cases hrun
        have hpublished := taken_functions h.roomy hmodule
        refine ⟨h.extend hpublished rfl hapart hfresh, List.prefix_append _ _, fun hok hmigration => ?_⟩
        by_cases hfailed : env.migration.isSome
        · exact absurd (if_pos hfailed) hmigration
        · exact absurd (if_neg hfailed) hok
      case h_2 m error hmodule =>
        cases hrun
        refine hsame _ ?_ ?_ _
        · exact refused_functions hmodule
        · rfl

/-- The functions as `hl_code_read` has read them. The tables have room for added functions, and the
loaded functions and natives have the first slots, each its own. -/
structure HlModule.FunctionsRead (m : HlModule) : Prop where
  capacity : m.functions.length ≤ m.functionsCapacity
  stableIds : m.functionStableIds.length = m.functionsCapacity
  slots : ∀ f ∈ m.functions, 0 ≤ f.findex ∧ f.findex < m.slotCount
  natives : ∀ f ∈ m.functions, ∀ n ∈ m.natives, f.findex ≠ (n : Int)

theorem foldl_set_cases {α : Type} (slot : α → Nat) (value : Nat → Int) (l : List (α × Nat))
    (indexes : List Int) {k : Nat} (hk : k < indexes.length) :
    ((∀ p ∈ l, slot p.1 ≠ k) ∧
        (l.foldl (fun ix (a, i) => ix.set (slot a) (value i)) indexes)[k]? = indexes[k]?) ∨
      ∃ p ∈ l, slot p.1 = k ∧
        (l.foldl (fun ix (a, i) => ix.set (slot a) (value i)) indexes)[k]? = some (value p.2) := by
  induction l generalizing indexes with
  | nil => exact .inl ⟨nofun, rfl⟩
  | cons p rest ih =>
    rw [List.foldl_cons]
    rcases ih (indexes.set (slot p.1) (value p.2)) (by rwa [List.length_set]) with
      ⟨hrest, hentry⟩ | ⟨q, hq, hslot, hentry⟩
    · by_cases hp : slot p.1 = k
      · refine .inr ⟨p, List.mem_cons_self, hp, hentry.trans ?_⟩
        rw [hp]
        exact List.getElem?_set_self hk
      · refine .inl ⟨List.forall_mem_cons.mpr ⟨hp, hrest⟩, hentry.trans ?_⟩
        exact List.getElem?_set_ne hp
    · exact .inr ⟨q, List.mem_cons_of_mem p hq, hslot, hentry⟩

theorem foldl_set_length {α : Type} (slot : α → Nat) (value : Nat → Int) (l : List (α × Nat))
    (indexes : List Int) :
    (l.foldl (fun ix (a, i) => ix.set (slot a) (value i)) indexes).length = indexes.length := by
  induction l generalizing indexes with
  | nil => rfl
  | cons p rest ih =>
    rw [List.foldl_cons, ih]
    exact List.length_set ..

theorem hlModuleInitIndexes_slotOf (hread : m.FunctionsRead) {f : HlFunction}
    (hf : f ∈ m.functions) : ∃ j, (hlModuleInitIndexes m).functionsView.SlotOf f.findex j := by
  obtain ⟨hnonneg, hused⟩ := hread.slots f hf
  have hcapacity := hread.capacity
  have hcount : m.slotCount = m.functions.length + m.natives.length := rfl
  let functions := m.functions.zipIdx.foldl (fun indexes p => indexes.set p.1.findex.toNat (p.2 : Int))
    (List.replicate m.slotCapacity (-1))
  have hlength : functions.length = m.slotCapacity :=
    (foldl_set_length (fun f : HlFunction => f.findex.toNat) (fun i => (i : Int)) _ _).trans
      List.length_replicate
  have hk : f.findex.toNat < m.slotCapacity := by
    unfold HlModule.slotCapacity
    omega
  -- no native writes over the entry of a function
  have hentry : (hlModuleInitIndexes m).functionsIndexes[f.findex.toNat]? = functions[f.findex.toNat]? := by
    rcases foldl_set_cases (fun n : Nat => n) (fun i => ((i + m.functions.length : Nat) : Int))
      m.natives.zipIdx functions (hlength ▸ hk) with ⟨-, hentry⟩ | ⟨p, hp, hslot, -⟩
    · exact hentry
    · have hnative := hread.natives f hf p.1 (List.fst_mem_of_mem_zipIdx hp)
      omega
  rcases foldl_set_cases (fun f : HlFunction => f.findex.toNat) (fun i => (i : Int))
      m.functions.zipIdx (List.replicate m.slotCapacity (-1))
      (by rwa [List.length_replicate]) with ⟨hnone, -⟩ | ⟨p, hp, hslot, hindex⟩
  · obtain ⟨i, hi⟩ := List.mem_iff_getElem?.mp hf
    exact absurd rfl (hnone (f, i) (List.mk_mem_zipIdx_iff_getElem?.mpr hi))
  · have hpget : m.functions[p.2]? = some p.1 := List.mem_zipIdx_iff_getElem?.mp hp
    have hpslots := hread.slots p.1 (List.mem_of_getElem? hpget)
    exact ⟨p.2, hnonneg, hused, hentry.trans hindex, p.1, hpget, by omega⟩

theorem hlModuleInitIndexes_roomy (hread : m.FunctionsRead) :
    (hlModuleInitIndexes m).functionsView.Roomy where
  functions := hread.capacity
  stableIds := hread.stableIds
  indexes := by
    have hcapacity := hread.capacity
    have hlength : (hlModuleInitIndexes m).functionsIndexes.length = m.slotCapacity := by
      refine (foldl_set_length (fun n : Nat => n)
        (fun i => ((i + m.functions.length : Nat) : Int)) _ _).trans ?_
      exact (foldl_set_length (fun f : HlFunction => f.findex.toNat) (fun i => (i : Int)) _ _).trans
        List.length_replicate
    show m.functionsCapacity + m.natives.length ≤ (hlModuleInitIndexes m).functionsIndexes.length
    rw [hlength, HlModule.slotCapacity]
    omega

/-- The entries the identity file gives: each names a function, and no two collide. -/
structure IdentitiesRead (m : HlModule) (identities : List RuntimeIdentity) : Prop where
  ids : (identities.map (·.stableId)).Nodup
  slots : (identities.map (·.slot)).Nodup
  functions : ∀ e ∈ identities, ∃ f ∈ m.functions, f.findex = e.slot

theorem IdentitiesRead.concat {identities : List RuntimeIdentity} (h : IdentitiesRead m identities)
    {entry : RuntimeIdentity} (hentry : checkIdentity m identities entry) :
    IdentitiesRead m (identities ++ [entry]) := by
  simp only [checkIdentity, Bool.and_eq_true, List.all_eq_true, decide_eq_true_eq] at hentry
  obtain ⟨⟨-, hfound⟩, hapart⟩ := hentry
  obtain ⟨f, hf⟩ := Option.isSome_iff_exists.mp hfound
  refine ⟨?_, ?_, fun e he => ?_⟩
  · rw [List.map_append]
    refine List.nodup_append.mpr ⟨h.ids, List.nodup_singleton _, fun id hid id' hid' heq => ?_⟩
    obtain ⟨e, he, rfl⟩ := List.mem_map.mp hid
    cases List.mem_singleton.mp hid'
    exact (hapart e he).1 heq
  · rw [List.map_append]
    refine List.nodup_append.mpr ⟨h.slots, List.nodup_singleton _, fun slot hslot slot' hslot' heq => ?_⟩
    obtain ⟨e, he, rfl⟩ := List.mem_map.mp hslot
    cases List.mem_singleton.mp hslot'
    exact (hapart e he).2 heq
  · rcases List.mem_append.mp he with he | he
    · exact h.functions e he
    · cases List.mem_singleton.mp he
      exact ⟨f, List.mem_of_find?_eq_some hf, by simpa using List.find?_some hf⟩

theorem readIdentities_read {identity : List UInt8} {offset count : Nat}
    {seen identities : List RuntimeIdentity} (hseen : IdentitiesRead m seen)
    (h : readIdentities m identity offset count seen = some identities) :
    IdentitiesRead m identities := by
  induction count generalizing seen with
  | zero =>
    cases h
    exact hseen
  | succ count ih =>
    simp only [readIdentities] at h
    split at h
    case isTrue hentry => exact ih (hseen.concat hentry) h
    case isFalse => cases h

theorem runInitializer_eq {slot : Int} {call : Int → HlRuntimeStatus}
    (h : runInitializer runtime slot call = .ok runtime') : runtime' = runtime := by
  unfold runInitializer at h
  split at h
  · cases h
    rfl
  · split at h
    · cases h
    · split at h
      · cases h
        rfl
      · cases h

theorem inStep_loaded {identity : List UInt8} {call : Int → HlRuntimeStatus} (hread : m.FunctionsRead)
    (h : hlRuntimeModuleLoad identity (hlModuleInitIndexes m) call = .ok runtime) :
    runtime.InStep runtime.identities.length := by
  unfold hlRuntimeModuleLoad at h
  dsimp only at h
  split at h
  · cases h
  split at h
  · cases h
  split at h
  · cases h
  split at h
  · cases h
  case h_2 identities hidentities =>
    have hempty : IdentitiesRead (hlModuleInitIndexes m) [] := ⟨.nil, .nil, nofun⟩
    have hentries := readIdentities_read hempty hidentities
    have hroomy := hlModuleInitIndexes_roomy hread
    rw [runInitializer_eq h]
    refine ⟨hroomy, hentries.ids, hentries.slots, fun e he => ?_, fun k e hk he => ?_, Nat.le_refl _⟩
    · obtain ⟨f, hf, hslot⟩ := hentries.functions e he
      obtain ⟨j, hj⟩ := hlModuleInitIndexes_slotOf hread hf
      exact ⟨j, hslot ▸ hj⟩
    · obtain ⟨hlt, -⟩ := List.getElem?_eq_some_iff.mp he
      exact absurd hlt (Nat.not_lt.mpr hk)

/-- Calls of `hl_runtime_module_apply_hlp`, whatever they return. -/
inductive ApplyRun (runtime : HlRuntimeModule) : HlRuntimeModule → Prop where
  | start : ApplyRun runtime runtime
  | step {before after : HlRuntimeModule} (env : RuntimeEnv) (bytes : List UInt8)
      (status : HlRuntimeStatus) (run : ApplyRun runtime before)
      (call : hlRuntimeModuleApplyHlp env before bytes = some (after, status)) :
      ApplyRun runtime after

theorem ApplyRun.inStep (h : runtime.InStep loaded) (hrun : ApplyRun runtime runtime') :
    runtime'.InStep loaded ∧ runtime.identities <+: runtime'.identities := by
  induction hrun with
  | start => exact ⟨h, List.prefix_refl _⟩
  | step env bytes status _ hcall ih =>
    obtain ⟨hstep, hextends, -⟩ := ih.1.apply hcall
    exact ⟨hstep, ih.2.trans hextends⟩

/-- After any calls the tables are in step. A stable id that was published keeps its slot through
every further call, and a call that does not apply its patch leaves the table of stable ids as it
was. -/
theorem stable_ids_in_step {identity : List UInt8} {call : Int → HlRuntimeStatus}
    {start : HlRuntimeModule} (hread : m.FunctionsRead)
    (hload : hlRuntimeModuleLoad identity (hlModuleInitIndexes m) call = .ok start)
    (hrun : ApplyRun start runtime) :
    runtime.InStep start.identities.length ∧ (∀ later, ApplyRun runtime later → ∀ e ∈ runtime.identities,
        e ∈ later.identities ∧ resolveStableId later e.stableId = e.slot) ∧
      ∀ env bytes later status, hlRuntimeModuleApplyHlp env runtime bytes = some (later, status) →
        status ≠ .ok → status ≠ .migrationFailed → later.identities = runtime.identities := by
  have hstep := (hrun.inStep (inStep_loaded hread hload)).1
  refine ⟨hstep, fun later hlater e he => ?_, fun env bytes later status hcall => ?_⟩
  · obtain ⟨hstep', hextends⟩ := hlater.inStep hstep
    have he' := hextends.subset he
    exact ⟨he', hstep'.resolve he'⟩
  · exact (hstep.apply hcall).2.2

def oneFunction : HlModule :=
  { patchedModule with
    types := [.zero, ⟨.hFun, .fun_ [] 0, false⟩]
    functions := [⟨0, 1⟩]
    functionsCapacity := 2
    functionStableIds := [7, 0]
    functionNames := [none, none]
    functionsTypes := [some 1, none]
    functionsPtrs := [some 0, some 0]
    patchTargets := some [some 0, none]
    patchOwners := [none, none] }

def oneIdentity : List UInt8 :=
  [0x48, 0x4C, 0x49, 3] ++ List.replicate 16 0 ++
    [1, 0, 0, 0, 1, 0, 0, 0, 255, 255, 255, 255, 7, 0, 0, 0, 0, 0, 0, 0]

def oneRuntime : HlRuntimeModule :=
  ⟨{ hlModuleInitIndexes oneFunction with revision := 1 }, List.replicate 16 0, [⟨7, 0⟩], none⟩

def addingPatch : List UInt8 :=
  [0x48, 0x4C, 0x50, 9] ++ List.replicate 16 0 ++ [1, 2, 3] ++ [1, 24] ++ List.replicate 22 0 ++ [2, 0] ++
    [2, 11, 1, 9, 9, 1, 0, 1, 1, 0, 67, 0, 0] ++
    [5, 6, 1, 9, 1, 1, 1, 97]

def idleRuntimeEnv : RuntimeEnv := ⟨fun _ => true, true, true, idleEnv, none, false, true⟩

/-- Whether a call was ok and left these identities. -/
def leaves (identities : List RuntimeIdentity) :
    Option (HlRuntimeModule × HlRuntimeStatus) → Bool
  | some (runtime, status) => status = .ok && runtime.identities = identities
  | none => false

theorem oneFunction_read : oneFunction.FunctionsRead :=
  ⟨by decide, by decide, by decide, by decide⟩

theorem stable_ids_in_step_added : ∃ later,
    hlRuntimeModuleApplyHlp idleRuntimeEnv oneRuntime addingPatch = some (later, .ok) ∧
      later.identities = [⟨7, 0⟩, ⟨9, 1⟩] ∧ later.InStep 1 := by
  have hload : hlRuntimeModuleLoad oneIdentity (hlModuleInitIndexes oneFunction) (fun _ => .ok) =
      .ok oneRuntime := rfl
  have hcheck : leaves [⟨7, 0⟩, ⟨9, 1⟩]
      (hlRuntimeModuleApplyHlp idleRuntimeEnv oneRuntime addingPatch) = true := by decide +kernel
  cases hcall : hlRuntimeModuleApplyHlp idleRuntimeEnv oneRuntime addingPatch with
  | none => simp [hcall, leaves] at hcheck
  | some result =>
    obtain ⟨later, status⟩ := result
    simp only [hcall, leaves, Bool.and_eq_true, decide_eq_true_eq] at hcheck
    obtain ⟨rfl, hidentities⟩ := hcheck
    have hrun : ApplyRun oneRuntime later := .step idleRuntimeEnv addingPatch .ok .start hcall
    exact ⟨later, rfl, hidentities, (stable_ids_in_step oneFunction_read hload hrun).1⟩

end HashLink
