import HashLink.Patch.Apply

/-!
What staging a patch has done by the time it commits. Staging writes the entries of the tables that
nothing uses yet, the fields it stages and the names and types of the added functions; everything
else of the module is as it was. The kinds of the types in use do not change, and the appended types
have the kinds the patch gives them.
-/

namespace HashLink

open Transaction

/-- Staging writes nothing else of the module. -/
def Frame (m m' : HlModule) : Prop :=
  m' = { m with
    types := m'.types
    globals := m'.globals
    globalsIndexes := m'.globalsIndexes
    functionNames := m'.functionNames
    functionsTypes := m'.functionsTypes
    patchFailureStage := m'.patchFailureStage }

/-- The types of the module while a patch is staged: those in use keep their kinds, and the first
`n` of the patch have theirs. -/
structure StagedKinds (m : HlModule) (patch : HlPatch) (n : Nat) (types : List HlType) : Prop where
  length : types.length = m.types.length
  old : ∀ t, t < m.ntypes → (types.getD t .zero).kind = (m.typeAt t).kind
  new : ∀ (i : Nat) (src : HlPatchType), i < n → patch.types[i]? = some src →
    m.ntypes + i < types.length → (types.getD (m.ntypes + i) .zero).kind = src.tag

structure BeforeGlobals (m : HlModule) (patch : HlPatch) (n : Nat) (m' : HlModule) : Prop where
  frame : Frame m m'
  globals : m'.globals = m.globals
  indexes : m'.globalsIndexes = m.globalsIndexes
  kinds : StagedKinds m patch n m'.types

variable {m m' : HlModule} {patch : HlPatch} {n : Nat}

theorem Frame.refl (m : HlModule) : Frame m m := rfl

theorem Frame.setTypes (h : Frame m m') (types : List HlType) : Frame m { m' with types } := by
  have hset := congrArg (fun k : HlModule => ({ k with types } : HlModule)) h
  exact hset

theorem Frame.setGlobals (h : Frame m m') (globals : List (Option Nat))
    (globalsIndexes : List Int) : Frame m { m' with globals, globalsIndexes } := by
  have hset := congrArg (fun k : HlModule => ({ k with globals, globalsIndexes } : HlModule)) h
  exact hset

theorem Frame.setAdded (h : Frame m m') (functionNames : List (Option (List UInt8)))
    (functionsTypes : List (Option Nat)) : Frame m { m' with functionNames, functionsTypes } := by
  have hset := congrArg (fun k : HlModule => ({ k with functionNames, functionsTypes } : HlModule)) h
  exact hset

theorem Frame.nglobals (h : Frame m m') : m'.nglobals = m.nglobals := by rw [h]

theorem Frame.ntypes (h : Frame m m') : m'.ntypes = m.ntypes := by rw [h]

theorem Frame.globalsSize (h : Frame m m') : m'.globalsSize = m.globalsSize := by rw [h]

theorem Frame.globalsData (h : Frame m m') : m'.globalsData = m.globalsData := by rw [h]

variable {types : List HlType} {src : HlPatchType}

theorem getD_set {k t : Nat} {type : HlType} :
    ((types.set k type).getD t .zero).kind =
      if k = t ∧ k < types.length then type.kind else (types.getD t .zero).kind := by
  simp only [List.getD_eq_getElem?_getD, List.getElem?_set]
  by_cases hkt : k = t
  · subst hkt
    by_cases hk : k < types.length <;> simp [hk]
  · simp [hkt]

theorem StagedKinds.set (h : StagedKinds m patch n types) {type : HlType} (hsrc : patch.types[n]? = some src)
    (hkind : type.kind = src.tag) :
    StagedKinds m patch (n + 1) (types.set (m.ntypes + n) type) := by
  refine ⟨by rw [List.length_set, h.length], fun t ht => ?_, fun i src' hi hsrc' hlt => ?_⟩
  · rw [getD_set, if_neg (by omega)]
    exact h.old t ht
  · rw [List.length_set] at hlt
    rw [getD_set]
    split
    case isTrue heq =>
      obtain rfl : i = n := by omega
      cases hsrc.symm.trans hsrc'
      exact hkind
    case isFalse heq =>
      exact h.new i src' (by omega) hsrc' hlt

theorem StagedKinds.modify {types' : List HlType} (h : StagedKinds m patch n types)
    (hlength : types'.length = types.length)
    (hkind : ∀ t, (types'.getD t .zero).kind = (types.getD t .zero).kind) :
    StagedKinds m patch n types' := by
  refine ⟨hlength.trans h.length, fun t ht => (hkind t).trans (h.old t ht), ?_⟩
  intro i src hi hsrc hlt
  exact (hkind _).trans (h.new i src hi hsrc (hlength ▸ hlt))

theorem getD_modify_kind {k : Nat} {f : HlType → HlType} (hf : ∀ t, (f t).kind = t.kind) (t : Nat) :
    ((types.modify k f).getD t .zero).kind = (types.getD t .zero).kind := by
  simp only [List.getD_eq_getElem?_getD, List.getElem?_modify]
  cases types[t]? with
  | none => simp
  | some type =>
    by_cases hkt : k = t <;> simp [hkt, hf]

/-- What a step makes of the module, when it succeeds. -/
def Stages {α : Type} (P : PatchState → Prop) (x : PatchM α) (Q : PatchState → Prop) : Prop :=
  Spec P x (fun _ => Q) fun _ _ => True

variable {α β : Type} {P Q R : PatchState → Prop}

theorem stages_bind {x : PatchM α} {f : α → PatchM β} (hx : Stages P x Q)
    (hf : ∀ a, Stages Q (f a) R) : Stages P (x >>= f) R := spec_bind hx hf

theorem stages_pure {a : α} : Stages P (pure a) P := spec_pure fun _ h => h

theorem stages_check (e : Except String α) : Stages P (check e) P :=
  spec_check (fun _ _ _ h => h) fun _ _ _ => trivial

theorem stages_demand (ok : Bool) (error : String) : Stages P (demand ok error) P :=
  stages_check _

theorem stages_throw (error : String) : Stages P (throw error : PatchM α) Q :=
  spec_throw fun _ _ => trivial

theorem stages_get_bind {f : PatchState → PatchM β} (h : ∀ s, Stages P (f s) R) :
    Stages P (get >>= f) R := fun s hs => h s s hs

theorem stages_inject (stage : Nat) : Stages P (injectPatchFailure stage) P := by
  refine stages_get_bind fun s => spec_ite (fun _ => ?_) fun _ => stages_pure
  have hmodify : Stages P (modifyModule fun m => { m with patchFailureStage := 0 })
      fun _ => True := fun _ _ => trivial
  exact stages_bind hmodify fun _ => stages_throw _

theorem stages_setType (hbase : patch.baseTypeCount = m.ntypes) (hsrc : patch.types[n]? = some src) {k : Nat}
    (hk : k = n ∨ k = n + 1) {type : HlType} (hkind : type.kind = src.tag) :
    Stages (fun s => BeforeGlobals m patch k s.module) (setType patch n type)
      fun s => BeforeGlobals m patch (n + 1) s.module := by
  refine spec_modify fun s hs => ⟨hs.frame.setTypes _, hs.globals, hs.indexes, ?_⟩
  have hkinds : StagedKinds m patch n s.module.types :=
    ⟨hs.kinds.length, hs.kinds.old, fun i src hi => hs.kinds.new i src (by omega)⟩
  have hset := hkinds.set hsrc hkind
  rw [← hbase] at hset
  exact hset

theorem stages_stagePatchType (env : PatchEnv) (ustrings : List (List UInt16))
    (hbase : patch.baseTypeCount = m.ntypes) (hsrc : patch.types[n]? = some src) :
    Stages (fun s => BeforeGlobals m patch n s.module) (stagePatchType env patch ustrings n src)
      fun s => BeforeGlobals m patch (n + 1) s.module := by
  refine stages_bind (stages_setType hbase hsrc (.inl rfl) rfl) fun _ => ?_
  have hset : ∀ type : HlType, type.kind = src.tag →
      Stages (fun s => BeforeGlobals m patch (n + 1) s.module) (setType patch n type)
        fun s => BeforeGlobals m patch (n + 1) s.module :=
    fun type hkind => stages_setType hbase hsrc (.inr rfl) hkind
  split
  case h_1 => exact stages_bind (stages_demand _ _) fun _ => hset _ rfl
  case h_6 => exact stages_bind (stages_demand _ _) fun _ => hset _ rfl
  case h_7 => exact stages_bind (stages_demand _ _) fun _ => hset _ rfl
  case h_8 => exact stages_bind (stages_demand _ _) fun _ => hset _ rfl
  case h_9 => exact stages_pure
  all_goals exact hset _ rfl

theorem stages_stagePatchTypes (env : PatchEnv) (ustrings : List (List UInt16))
    (hbase : patch.baseTypeCount = m.ntypes) :
    Stages (fun s => BeforeGlobals m patch 0 s.module) (stagePatchTypes env patch ustrings)
      fun s => BeforeGlobals m patch patch.types.length s.module := by
  refine stages_bind (stages_demand _ _) fun _ => ?_
  have hloop : Stages (fun s => BeforeGlobals m patch 0 s.module)
      (eachIdx (stagePatchType env patch ustrings) 0 patch.types)
      fun s => BeforeGlobals m patch (0 + patch.types.length) s.module :=
    spec_eachIdx (I := fun i (s : PatchState) => BeforeGlobals m patch i s.module) fun i src hsrc => by
        rw [Nat.zero_add]
        exact stages_stagePatchType env ustrings hbase hsrc
  rw [Nat.zero_add] at hloop
  exact hloop

theorem setField_kind (field : Nat) (value : HlObjField) (t : HlType) :
    (t.setField field value).kind = t.kind := by
  unfold HlType.setField
  split <;> rfl

theorem BeforeGlobals.modifyTypes (h : BeforeGlobals m patch n m') (hlength : types.length = m'.types.length)
    (hkind : ∀ t, (types.getD t .zero).kind = (m'.types.getD t .zero).kind) :
    BeforeGlobals m patch n { m' with types } :=
  ⟨h.frame.setTypes types, h.globals, h.indexes, h.kinds.modify hlength hkind⟩

theorem stages_stagePatchObjectField (env : PatchEnv) (ustrings : List (List UInt16)) (i : Nat)
    (f : HlPatchObjectField) :
    Stages (fun s => BeforeGlobals m patch n s.module) (stagePatchObjectField env ustrings i f)
      fun s => BeforeGlobals m patch n s.module := by
  have hfail : ∀ error (P : PatchState → Prop), Stages P (failObjectFields error)
      fun s => BeforeGlobals m patch n s.module := fun error P =>
    stages_bind (Q := fun _ => True) (fun _ _ => trivial) fun _ => stages_throw _
  refine spec_get_bind fun s hs => ?_
  simp only
  split
  · exact hfail _ _
  · refine spec_ite (fun _ => hfail _ _) fun _ => spec_ite (fun _ => hfail _ _) fun _ =>
      spec_ite (fun _ => hfail _ _) fun _ => spec_set ?_
    exact hs.modifyTypes (List.length_modify ..) (getD_modify_kind (setField_kind _ _))

theorem stages_stagePatchObjectFields (env : PatchEnv) (ustrings : List (List UInt16)) :
    Stages (fun s => BeforeGlobals m patch n s.module) (stagePatchObjectFields env patch ustrings)
      fun s => BeforeGlobals m patch n s.module := by
  refine stages_bind (stages_demand _ _) fun _ => ?_
  exact spec_eachIdx (I := fun _ (s : PatchState) => BeforeGlobals m patch n s.module)
    fun i f _ => stages_stagePatchObjectField env ustrings _ f

theorem stages_stageAdded :
    Stages (fun s => BeforeGlobals m patch n s.module) (stageAdded patch)
      fun s => BeforeGlobals m patch n s.module :=
  spec_modify fun _ hs => foldIdx_keeps (Q := BeforeGlobals m patch n)
    (fun _ _ _ _ h => ⟨h.frame.setAdded _ _, h.globals, h.indexes, h.kinds⟩) hs

theorem applied_steps {env : PatchEnv} (h : hlModuleApplyPatch env m patch = (m', none)) :
    ∃ layout size code offsets s, checkPatch env m patch = .ok (layout, size) ∧
      stagePatch env patch layout (.start m) = .ok (code, offsets) s ∧
      m' = commitPatch env patch size code offsets s := by
  unfold hlModuleApplyPatch at h
  split at h
  · cases h
  case h_2 layout size hcheck =>
    split at h
    · cases h
    case h_2 code offsets s hstage =>
      cases h
      exact ⟨layout, size, code, offsets, s, hcheck, hstage, rfl⟩

end HashLink
