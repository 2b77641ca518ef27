import HashLink.Patch.Staging

/-!
The room of the globals a patch adds. `validate_patch_globals` checks that there is room for them and
`stage_patch_globals` lays them out; both go through the patch and keep their own count of the bytes
used. Each new global is a pointer, so the two counts agree and the slots follow each other from the
first pointer boundary past the globals in use.
-/

namespace HashLink

open Transaction

/-- The first pointer boundary at or past `used`. -/
def padded (used : Nat) : Nat := used + hlPadSize used .hObj

theorem padded_eq (used : Nat) : padded used = used + (8 - used % 8) % 8 := rfl

theorem padded_mod (used : Nat) : padded used % hlWSize = 0 := by
  rw [padded_eq]
  simp only [hlWSize]
  omega

theorem le_padded (used : Nat) : used ≤ padded used := Nat.le_add_right _ _

theorem padded_lt (used : Nat) : padded used < used + hlWSize := by
  rw [padded_eq]
  simp only [hlWSize]
  omega

theorem padded_of_mod {used : Nat} (h : used % hlWSize = 0) : padded used = used := by
  rw [padded_eq]
  simp only [hlWSize] at h
  omega

/-- The bytes used after `i` pointers. -/
def roomAfter (used : Nat) : Nat → Nat
  | 0 => used
  | i + 1 => padded used + hlWSize * (i + 1)

theorem padded_roomAfter (used i : Nat) : padded (roomAfter used i) = padded used + hlWSize * i := by
  cases i with
  | zero => simp [roomAfter]
  | succ i =>
    refine padded_of_mod ?_
    have hmod := padded_mod used
    simp only [roomAfter, hlWSize] at hmod ⊢
    omega

theorem roomAfter_succ (used i : Nat) :
    roomAfter used (i + 1) = padded (roomAfter used i) + hlWSize := by
  rw [padded_roomAfter, roomAfter]
  simp only [hlWSize]
  omega

variable {m m' : HlModule} {patch : HlPatch} {n : Nat}

def GlobalChecked (m : HlModule) (patch : HlPatch) (global : HlPatchGlobal) : Prop :=
  global.type.toNat < patch.totalTypes ∧ patchTypeIsClass (patchTypeKind m patch global.type.toNat) = true

theorem class_pads {kind : HlTypeKind} (h : patchTypeIsClass kind = true) (used : Nat) :
    used + hlPadSize used kind = padded used ∧ kind.size = hlWSize := by
  have hkind : kind = .hObj ∨ kind = .hStruct := by simpa [patchTypeIsClass] using h
  rcases hkind with rfl | rfl <;> exact ⟨rfl, rfl⟩

theorem validatePatchGlobal_ok {used used' : Nat} {global : HlPatchGlobal}
    (h : validatePatchGlobal m patch used global = .ok used') :
    GlobalChecked m patch global ∧ used' = padded used + hlWSize ∧ used' ≤ m.globalsDataCapacity := by
  unfold validatePatchGlobal at h
  split at h
  case h_1 =>
    simp only [except_bind_eq_ok, require_eq_ok, Bool.and_eq_true, decide_eq_true_eq] at h
    obtain ⟨_, ⟨⟨hin, -⟩, hclass⟩, _, hroom, hused⟩ := h
    cases hused
    simp only [inTable, Bool.and_eq_true, decide_eq_true_eq] at hin
    exact ⟨⟨by omega, hclass⟩, rfl, hroom⟩
  case h_2 fields =>
    simp only [except_bind_eq_ok, require_eq_ok] at h
    obtain ⟨_, hin, h⟩ := h
    split at h
    case h_2 => cases h
    case h_1 obj hkind hobj =>
      simp only [except_bind_eq_ok, require_eq_ok, decide_eq_true_eq] at h
      obtain ⟨_, -, _, -, _, hroom, hused⟩ := h
      cases hused
      simp only [inTable, Bool.and_eq_true, decide_eq_true_eq] at hin
      have hbase : global.type.toNat < patch.baseTypeCount := by omega
      rw [hkind] at hroom ⊢
      refine ⟨⟨Nat.lt_of_lt_of_le hbase (Nat.le_add_right _ _), ?_⟩, rfl, hroom⟩
      rw [patchTypeKind, if_pos hbase, hkind]
      rfl

/-- The room the check has counted up to the global at `i`. -/
def validatedRoom (m : HlModule) (patch : HlPatch) (i : Nat) : Except String Nat :=
  (patch.globals.take i).foldlM (validatePatchGlobal m patch) m.globalsSize

variable {size : Nat}

theorem validatedRoom_part (h : validatedRoom m patch patch.globals.length = .ok size) (i : Nat) :
    ∃ room, validatedRoom m patch i = .ok room := by
  unfold validatedRoom at h ⊢
  rw [List.take_length, ← List.take_append_drop i patch.globals, List.foldlM_append] at h
  obtain ⟨room, hpart, -⟩ := except_bind_eq_ok.mp h
  exact ⟨room, hpart⟩

theorem validatedRoom_succ {i room room' : Nat} {global : HlPatchGlobal}
    (hglobal : patch.globals[i]? = some global) (h : validatedRoom m patch i = .ok room)
    (h' : validatedRoom m patch (i + 1) = .ok room') :
    validatePatchGlobal m patch room global = .ok room' := by
  unfold validatedRoom at h h'
  rw [List.take_add_one, hglobal, Option.toList_some, List.foldlM_append, h] at h'
  have hone : [global].foldlM (validatePatchGlobal m patch) room = .ok room' := h'
  simpa only [List.foldlM_cons, List.foldlM_nil, bind_pure] using hone

theorem validatedRoom_eq (h : validatedRoom m patch patch.globals.length = .ok size) {i : Nat}
    (hi : i ≤ patch.globals.length) :
    validatedRoom m patch i = .ok (roomAfter m.globalsSize i) := by
  induction i with
  | zero => rfl
  | succ i ih =>
    have hroom := ih (Nat.le_of_succ_le hi)
    obtain ⟨room', hnext⟩ := validatedRoom_part h (i + 1)
    have hstep := validatedRoom_succ (List.getElem?_eq_getElem hi) hroom hnext
    rw [hnext, roomAfter_succ, (validatePatchGlobal_ok hstep).2.1]

theorem validatedRoom_global (h : validatedRoom m patch patch.globals.length = .ok size) {i : Nat}
    {global : HlPatchGlobal} (hglobal : patch.globals[i]? = some global) :
    GlobalChecked m patch global ∧ roomAfter m.globalsSize (i + 1) ≤ m.globalsDataCapacity := by
  obtain ⟨hi, -⟩ := List.getElem?_eq_some_iff.mp hglobal
  have hroom := validatedRoom_eq h (Nat.le_of_lt hi)
  have hnext := validatedRoom_eq h hi
  obtain ⟨hchecked, -, hfits⟩ := validatePatchGlobal_ok (validatedRoom_succ hglobal hroom hnext)
  exact ⟨hchecked, hfits⟩

/-- The tables of the globals once the first `n` of a patch are staged. -/
structure StagedTables (m : HlModule) (patch : HlPatch) (n : Nat) (m' : HlModule) : Prop where
  lengths : m'.globals.length = m.globals.length ∧ m'.globalsIndexes.length = m.globalsIndexes.length
  kept : ∀ g, g < m.nglobals → m'.globals[g]? = m.globals[g]? ∧ m'.globalsIndexes[g]? = m.globalsIndexes[g]?
  staged : ∀ (i : Nat) (global : HlPatchGlobal), i < n → patch.globals[i]? = some global →
    m'.globals[m.nglobals + i]? = some (some global.type.toNat) ∧ m'.globalsIndexes[m.nglobals + i]? =
        some ((padded m.globalsSize + hlWSize * i : Nat) : Int)

/-- There are entries for the globals of the patch. -/
structure RoomForGlobals (m : HlModule) (patch : HlPatch) : Prop where
  globals : m.nglobals + patch.globals.length ≤ m.globals.length
  indexes : m.globalsIndexes.length = m.globals.length

theorem StagedTables.set (h : StagedTables m patch n m') (hroom : RoomForGlobals m patch)
    (hcount : m'.nglobals = m.nglobals) {global : HlPatchGlobal}
    (hglobal : patch.globals[n]? = some global) :
    StagedTables m patch (n + 1)
      { m' with
        globals := m'.globals.set (m'.nglobals + n) (some global.type.toNat)
        globalsIndexes := m'.globalsIndexes.set (m'.nglobals + n)
          ((padded m.globalsSize + hlWSize * n : Nat) : Int) } := by
  obtain ⟨hn, -⟩ := List.getElem?_eq_some_iff.mp hglobal
  have hlt := hroom.globals
  have hindexes := hroom.indexes
  obtain ⟨hlen, hlen'⟩ := h.lengths
  refine ⟨by simpa using h.lengths, fun g hg => ?_, fun i global' hi hglobal' => ?_⟩
  · simp only [hcount]
    rw [List.getElem?_set_ne (by omega), List.getElem?_set_ne (by omega)]
    exact h.kept g hg
  · simp only [hcount]
    by_cases heq : i = n
    · subst heq
      cases hglobal.symm.trans hglobal'
      rw [List.getElem?_set_self (by omega), List.getElem?_set_self (by omega)]
      exact ⟨rfl, rfl⟩
    · rw [List.getElem?_set_ne (by omega), List.getElem?_set_ne (by omega)]
      exact h.staged i global' (by omega) hglobal'

theorem StagedKinds.global {types : List HlType}
    (h : StagedKinds m patch patch.types.length types) (hbase : patch.baseTypeCount = m.ntypes)
    (hcapacity : patch.totalTypes ≤ m.types.length) {global : HlPatchGlobal}
    (hchecked : GlobalChecked m patch global) :
    patchTypeIsClass (types.getD global.type.toNat .zero).kind = true := by
  obtain ⟨htotal, hclass⟩ := hchecked
  have hkind : (types.getD global.type.toNat .zero).kind = patchTypeKind m patch global.type.toNat := by
    unfold patchTypeKind
    split
    case isTrue hlt => exact h.old _ (hbase ▸ hlt)
    case isFalse hge =>
      simp only [HlPatch.totalTypes] at htotal hcapacity
      have hlt : global.type.toNat - patch.baseTypeCount < patch.types.length := by omega
      have hnew := h.new _ _ hlt (List.getElem?_eq_getElem hlt) (by rw [h.length]; omega)
      rw [show m.ntypes + (global.type.toNat - patch.baseTypeCount) = global.type.toNat by omega]
        at hnew
      rw [hnew, List.getElem?_eq_getElem hlt]
      rfl
  rw [hkind]
  exact hclass

theorem stagePatchGlobals_tables (hbefore : BeforeGlobals m patch patch.types.length m')
    (hvalid : validatedRoom m patch patch.globals.length = .ok size) (hroom : RoomForGlobals m patch)
    (hbase : patch.baseTypeCount = m.ntypes) (hcapacity : patch.totalTypes ≤ m.types.length) :
    Frame m (stagePatchGlobals patch m') ∧
      StagedTables m patch patch.globals.length (stagePatchGlobals patch m') ∧
      (stagePatchGlobals patch m').types = m'.types := by
  have hfold := foldIdx_induct (f := stagePatchGlobal) (l := patch.globals) (b := (m', m'.globalsSize)) (n := 0)
    (Q := fun i state => Frame m state.1 ∧ StagedTables m patch i state.1 ∧
      state.1.types = m'.types ∧ state.2 = roomAfter m.globalsSize i)
    (by
      rintro i global ⟨m'', used⟩ hglobal ⟨hframe, htables, htypes, hused⟩
      simp only [Nat.zero_add] at htables hused ⊢
      subst hused
      obtain ⟨hchecked, -⟩ := validatedRoom_global hvalid hglobal
      have hclass := hbefore.kinds.global hbase hcapacity hchecked
      obtain ⟨hpad, hsize⟩ := class_pads hclass (roomAfter m.globalsSize i)
      have hkind : (m''.typeAt global.type.toNat).kind =
          (m'.types.getD global.type.toNat .zero).kind := by rw [HlModule.typeAt, htypes]
      simp only [stagePatchGlobal, hkind, hpad, hsize]
      rw [← roomAfter_succ, padded_roomAfter]
      exact ⟨hframe.setGlobals _ _, htables.set hroom hframe.nglobals hglobal, htypes, rfl⟩)
    ⟨hbefore.frame, ⟨by rw [hbefore.globals, hbefore.indexes]; exact ⟨rfl, rfl⟩,
      fun g _ => by rw [hbefore.globals, hbefore.indexes]; exact ⟨rfl, rfl⟩,
      fun i _ hi => absurd hi (Nat.not_lt_zero i)⟩, rfl, hbefore.frame.globalsSize⟩
  rw [Nat.zero_add] at hfold
  exact ⟨hfold.1, hfold.2.1, hfold.2.2.1⟩

structure Staged (m : HlModule) (patch : HlPatch) (m' : HlModule) : Prop where
  frame : Frame m m'
  tables : StagedTables m patch patch.globals.length m'
  kinds : StagedKinds m patch patch.types.length m'.types

structure CheckedGlobals (m : HlModule) (patch : HlPatch) (size : Nat) : Prop where
  base : patch.baseTypeCount = m.ntypes
  capacity : patch.totalTypes ≤ m.types.length
  room : patch.globals ≠ [] → m.nglobals + patch.globals.length ≤ m.globals.length
  valid : validatedRoom m patch patch.globals.length = .ok size

theorem checkPatch_globals {env : PatchEnv} {layout : PatchLayout}
    (h : checkPatch env m patch = .ok (layout, size)) : CheckedGlobals m patch size := by
  simp only [checkPatch, except_bind_eq_ok, require_eq_ok] at h
  obtain ⟨_, -, _, -, _, -, _, hbase, _, -, _, -, _, htypes, size', hglobals, h⟩ := h
  obtain ⟨_, -, layout', -, _, -, _, -, _, -, _, -, _, -, _, -, hreturn⟩ := h
  obtain rfl : size' = size := by
    cases hreturn
    rfl
  simp only [validatePatchTypes, except_bind_eq_ok, require_eq_ok, decide_eq_true_eq] at htypes
  obtain ⟨_, hcapacity, -⟩ := htypes
  unfold validatePatchGlobals at hglobals
  split at hglobals
  case isTrue hempty =>
    have hnil : patch.globals = [] := List.isEmpty_iff.mp hempty
    cases hglobals
    refine ⟨by simp_all, hcapacity, fun hne => absurd hnil hne, ?_⟩
    rw [validatedRoom, hnil]
    rfl
  case isFalse hsome =>
    simp only [except_bind_eq_ok, require_eq_ok, Bool.and_eq_true, decide_eq_true_eq] at hglobals
    obtain ⟨_, ⟨-, hroom⟩, hvalid⟩ := hglobals
    refine ⟨by simp_all, hcapacity, fun _ => hroom, ?_⟩
    rw [validatedRoom, List.take_length]
    exact hvalid

theorem Staged.link (env : PatchEnv) (h : Staged m patch m') (hbase : patch.baseTypeCount = m.ntypes) :
    Staged m patch (linkPatchObjectTypes env patch m') := by
  refine foldIdx_keeps (Q := Staged m patch) (fun i src m'' hsrc h => ?_) h
  rw [Nat.zero_add]
  unfold linkPatchObjectType
  have hset : ∀ obj : HlTypeObj, Staged m patch
      { m'' with types := m''.types.set (patch.baseTypeCount + i) ⟨src.tag, .obj obj, false⟩ } := by
    refine fun obj => ⟨h.frame.setTypes _, ⟨h.tables.lengths, h.tables.kept, h.tables.staged⟩, ?_⟩
    refine h.kinds.modify (List.length_set ..) fun t => ?_
    rw [getD_set]
    split
    case isTrue heq =>
      obtain ⟨rfl, hlt⟩ := heq
      obtain ⟨hi, -⟩ := List.getElem?_eq_some_iff.mp hsrc
      rw [hbase] at hlt ⊢
      exact (h.kinds.new i src hi hsrc hlt).symm
    case isFalse => rfl
  split
  · exact hset _
  · exact hset _
  · exact h

theorem stages_stagePatch (env : PatchEnv) (layout : PatchLayout) (hchecked : CheckedGlobals m patch size)
    (hindexes : m.globalsIndexes.length = m.globals.length) :
    Stages (fun s => s.module = m) (stagePatch env patch layout) fun s => Staged m patch s.module := by
  have hstart : ∀ s : PatchState, s.module = m → BeforeGlobals m patch 0 s.module := by
    rintro s rfl
    exact ⟨Frame.refl _, rfl, rfl, rfl, fun _ _ => rfl, fun i _ hi => absurd hi (Nat.not_lt_zero i)⟩
  refine stages_get_bind fun s => stages_bind (stages_inject 1) fun _ => ?_
  refine stages_bind ((stages_stagePatchTypes env _ hchecked.base).pre hstart) fun _ =>
    stages_bind (stages_stagePatchObjectFields env _) fun _ => stages_get_bind fun _ =>
    stages_bind (stages_check _) fun _ => stages_bind (stages_inject 2) fun _ =>
    stages_get_bind fun _ => stages_bind (stages_check _) fun _ =>
    stages_bind stages_stageAdded fun _ => ?_
  have hglobals : Stages (fun s => BeforeGlobals m patch patch.types.length s.module)
      (stageGlobals patch) fun s => Staged m patch s.module := by
    refine spec_ite (fun hempty => spec_pure fun s hs => ?_) fun hsome => spec_modify fun s hs => ?_
    · refine ⟨hs.frame, ⟨by rw [hs.globals, hs.indexes]; exact ⟨rfl, rfl⟩,
        fun g _ => by rw [hs.globals, hs.indexes]; exact ⟨rfl, rfl⟩, fun i global hi => ?_⟩, hs.kinds⟩
      simp [List.isEmpty_iff.mp hempty] at hi
    · have hroom := hchecked.room (by simpa using hsome)
      obtain ⟨hframe, htables, htypes⟩ := stagePatchGlobals_tables hs hchecked.valid
        ⟨hroom, hindexes⟩ hchecked.base hchecked.capacity
      exact ⟨hframe, htables, htypes ▸ hs.kinds⟩
  refine stages_bind hglobals fun _ => stages_bind (Q := fun s => Staged m patch s.module)
    (spec_modify fun s hs => hs.link env hchecked.base) fun _ => ?_
  refine stages_bind (stages_demand _ _) fun _ => stages_bind (stages_check _) fun _ =>
    stages_bind (stages_check _) fun _ => stages_bind (stages_demand _ _) fun _ =>
    stages_bind (stages_inject 3) fun _ => stages_bind (stages_demand _ _) fun _ =>
    stages_bind ?_ fun _ => stages_pure
  exact spec_ite (fun _ => stages_pure) fun _ => stages_check _

/-- What the layout of the globals depends on. -/
structure GlobalsView where
  globals : List (Option Nat)
  indexes : List Int
  nglobals : Nat
  size : Nat
  capacity : Nat
  ntypes : Nat
  kinds : List HlTypeKind

def HlModule.globalsView (m : HlModule) : GlobalsView :=
  ⟨m.globals, m.globalsIndexes, m.nglobals, m.globalsSize, m.globalsDataCapacity, m.ntypes,
    m.types.map HlType.kind⟩

theorem writeBytes_length (data : List UInt8) (offset : Nat) (bytes : List UInt8) :
    (writeBytes data offset bytes).length = data.length :=
  foldIdx_keeps (Q := fun l : List UInt8 => l.length = data.length)
    (fun _ _ _ _ h => (List.length_set ..).trans h) rfl

theorem writeBytes_view (m : HlModule) (offset : Nat) (bytes : List UInt8) :
    ({ m with globalsData := writeBytes m.globalsData offset bytes } : HlModule).globalsView =
      m.globalsView := by
  simp [HlModule.globalsView, HlModule.globalsDataCapacity, writeBytes_length]

theorem map_kind_modify (types : List HlType) (k : Nat) {f : HlType → HlType} (hf : ∀ t, (f t).kind = t.kind) :
    (types.modify k f).map HlType.kind = types.map HlType.kind := by
  apply List.ext_getElem?
  intro i
  simp only [List.getElem?_map, List.getElem?_modify]
  cases types[i]? with
  | none => simp
  | some t =>
    by_cases hki : k = i <;> simp [hki, hf]

theorem setTypes_view {m : HlModule} {types : List HlType}
    (h : types.map HlType.kind = m.types.map HlType.kind) :
    ({ m with types } : HlModule).globalsView = m.globalsView := by
  simp only [HlModule.globalsView, h]
  rfl

theorem commitPatchObjectFields_view (staged : List PatchObjectFieldStage) (m : HlModule) :
    (commitPatchObjectFields staged m).globalsView = m.globalsView := by
  refine foldl_keeps (g := HlModule.globalsView)
    (fun m stage => setTypes_view (map_kind_modify _ _ fun t => ?_)) staged m
  split <;> rfl

theorem redirectSlot_view (m : HlModule) (slot code : Nat) :
    (redirectSlot m slot code).globalsView = m.globalsView := by
  unfold redirectSlot
  split <;> rfl

theorem commitPatch_view (env : PatchEnv) (patch : HlPatch) (size code : Nat) (offsets : List Nat)
    (s : PatchState) :
    (commitPatch env patch size code offsets s).globalsView =
      { s.module.globalsView with
        nglobals := s.module.nglobals + patch.globals.length
        size
        ntypes := patch.totalTypes } := by
  let owned : HlModule := { s.module with
    types := s.module.types.mapIdx fun i (t : HlType) =>
      if s.module.ntypes ≤ i ∧ i < patch.totalTypes then { t with gcOwner := true } else t
    ntypes := patch.totalTypes }
  let filled := foldIdx (fun (m : HlModule) i (global : HlPatchGlobal) =>
    let offset := (m.globalsIndexes.getD (m.nglobals + i) 0).toNat
    if global.fields.isNone then m
    else { m with globalsData := writeBytes m.globalsData offset (env.constant i) })
    0 patch.globals owned
  have howned : owned.globalsView =
      { s.module.globalsView with ntypes := patch.totalTypes } := by
    have hkinds : owned.types.map HlType.kind = s.module.types.map HlType.kind := by
      apply List.ext_getElem?
      intro i
      simp only [owned, List.getElem?_mapIdx, List.getElem?_map]
      cases s.module.types[i]? with
      | none => rfl
      | some t =>
        simp only [Option.map_some]
        split <;> rfl
    simp only [HlModule.globalsView, hkinds]
    rfl
  have hfilled : filled.globalsView = owned.globalsView :=
    foldIdx_keeps (Q := fun k : HlModule => k.globalsView = owned.globalsView) (fun i global k _ h => by
        simp only
        split
        · exact h
        · exact (writeBytes_view k _ _).trans h) rfl
  let counted : HlModule := { filled with
    nglobals := filled.nglobals + patch.globals.length
    npatchglobals := filled.npatchglobals + patch.globals.length
    globalsSize := size }
  have hcounted : counted.globalsView = { filled.globalsView with
      nglobals := filled.nglobals + patch.globals.length, size } := rfl
  have hnglobals : filled.nglobals = s.module.nglobals := by
    have hview := congrArg GlobalsView.nglobals (hfilled.trans howned)
    exact hview
  let redirected := (patch.functions.zip offsets).foldl (fun m p =>
    let m := redirectSlot m p.1.findex.toNat (code + p.2)
    { m with patchOwners := m.patchOwners.set p.1.findex.toNat (some code) })
    (commitPatchObjectFields s.stagedFields counted)
  have hredirected : redirected.globalsView = counted.globalsView := by
    refine (foldl_keeps (g := HlModule.globalsView) (fun m f => ?_) _ _).trans (commitPatchObjectFields_view _ _)
    exact redirectSlot_view m f.1.findex.toNat (code + f.2)
  have hpublished : (publishAddedFunctions patch redirected).globalsView = redirected.globalsView := by
    unfold publishAddedFunctions
    exact foldl_keeps (g := HlModule.globalsView) (fun _ _ => by rfl) _ _
  calc (commitPatch env patch size code offsets s).globalsView
      = (publishAddedFunctions patch redirected).globalsView := rfl
    _ = counted.globalsView := hpublished.trans hredirected
    _ = _ := by rw [hcounted, hfilled, howned, hnglobals]

def HlModule.globalSize (m : HlModule) (t : Nat) : Nat := (m.typeAt t).kind.size

/-- The global `g` has the type `t` and its slot starts at `offset`. -/
structure HlModule.HasSlot (m : HlModule) (g t offset : Nat) : Prop where
  live : g < m.nglobals
  type : m.globals[g]? = some (some t)
  index : m.globalsIndexes[g]? = some (offset : Int)

/-- The slots in use end before the first one a patch may add, and there is room for as many as
there are entries left. -/
structure HlModule.LaidOut (m : HlModule) : Prop where
  lengths : m.globalsIndexes.length = m.globals.length
  count : m.nglobals ≤ m.globals.length
  types : m.ntypes ≤ m.types.length
  slots : ∀ g, g < m.nglobals → ∃ t offset, m.HasSlot g t offset ∧ t < m.ntypes ∧
    offset + m.globalSize t ≤ padded m.globalsSize
  room : padded m.globalsSize + hlWSize * (m.globals.length - m.nglobals) ≤ m.globalsDataCapacity
  int : m.globalsDataCapacity < 2 ^ 31

/-- Two ranges of bytes have none in common. -/
def Apart (offset size offset' size' : Nat) : Prop :=
  ∀ b, ¬(offset ≤ b ∧ b < offset + size ∧ offset' ≤ b ∧ b < offset' + size')

structure PatchGlobalsLayout (m : HlModule) (patch : HlPatch) (m' : HlModule) : Prop where
  /-- The check ends with the size the module gets. -/
  size : validatedRoom m patch patch.globals.length = .ok m'.globalsSize
  /-- A staged slot is where the check counted it, and it has the bytes the check counted. -/
  same : ∀ (i : Nat) (global : HlPatchGlobal), patch.globals[i]? = some global →
    ∃ used offset, validatedRoom m patch i = .ok used ∧ used ≤ offset ∧
      validatedRoom m patch (i + 1) = .ok (offset + m'.globalSize global.type.toNat) ∧
      m'.HasSlot (m.nglobals + i) global.type.toNat offset
  /-- It is aligned. -/
  aligned : ∀ g t offset, m.nglobals ≤ g → m'.HasSlot g t offset → offset % m'.globalSize t = 0
  /-- It is in the capacity of the globals. -/
  fits : ∀ g t offset, m.nglobals ≤ g → m'.HasSlot g t offset →
    offset + m'.globalSize t ≤ m'.globalsDataCapacity ∧ m'.globalsDataCapacity < 2 ^ 31
  /-- It has no byte in common with the slot of another global. -/
  apart : ∀ g t offset g' t' offset', m.nglobals ≤ g → m'.HasSlot g t offset →
    m'.HasSlot g' t' offset' → g ≠ g' → Apart offset (m'.globalSize t) offset' (m'.globalSize t')
  /-- The globals there were keep their slots. -/
  kept : ∀ g t offset, g < m.nglobals → (m'.HasSlot g t offset ↔ m.HasSlot g t offset)
  sizes : ∀ t, t < m.ntypes → m'.globalSize t = m.globalSize t

/-- What a module that has taken a patch has for globals. -/
structure AppliedGlobals (m : HlModule) (patch : HlPatch) (m' : HlModule) : Prop where
  checked : CheckedGlobals m patch m'.globalsSize
  nglobals : m'.nglobals = m.nglobals + patch.globals.length
  capacity : m'.globalsDataCapacity = m.globalsDataCapacity
  ntypes : m'.ntypes = patch.totalTypes
  tables : StagedTables m patch patch.globals.length m'
  kinds : StagedKinds m patch patch.types.length m'.types

theorem getD_kind (types : List HlType) (t : Nat) :
    (types.getD t .zero).kind = (types.map HlType.kind).getD t .hVoid := by
  simp only [List.getD_eq_getElem?_getD, List.getElem?_map]
  cases types[t]? <;> rfl

theorem appliedGlobals {env : PatchEnv} (hlaid : m.LaidOut)
    (h : hlModuleApplyPatch env m patch = (m', none)) : AppliedGlobals m patch m' := by
  obtain ⟨layout, size, code, offsets, s, hcheck, hstage, rfl⟩ := applied_steps h
  have hchecked := checkPatch_globals hcheck
  have hspec := stages_stagePatch env layout hchecked hlaid.lengths (.start m) rfl
  rw [hstage] at hspec
  obtain ⟨hframe, htables, hkinds⟩ := hspec
  have hview := commitPatch_view env patch size code offsets s
  generalize commitPatch env patch size code offsets s = m' at hview
  have hglobals : m'.globals = s.module.globals := congrArg GlobalsView.globals hview
  have hindexes : m'.globalsIndexes = s.module.globalsIndexes := congrArg GlobalsView.indexes hview
  have hcount : m'.nglobals = s.module.nglobals + patch.globals.length :=
    congrArg GlobalsView.nglobals hview
  have hsize : m'.globalsSize = size := congrArg GlobalsView.size hview
  have hcapacity : m'.globalsDataCapacity = s.module.globalsDataCapacity :=
    congrArg GlobalsView.capacity hview
  have htypes : m'.ntypes = patch.totalTypes := congrArg GlobalsView.ntypes hview
  have hkind : m'.types.map HlType.kind = s.module.types.map HlType.kind :=
    congrArg GlobalsView.kinds hview
  refine ⟨hsize ▸ hchecked, hframe.nglobals ▸ hcount, ?_, htypes, ?_, ?_⟩
  · rw [hcapacity, HlModule.globalsDataCapacity, hframe.globalsData]
    rfl
  · exact ⟨by rw [hglobals, hindexes]; exact htables.lengths,
      by rw [hglobals, hindexes]; exact htables.kept,
      by rw [hglobals, hindexes]; exact htables.staged⟩
  · refine hkinds.modify (by simpa using congrArg List.length hkind) fun t => ?_
    rw [getD_kind, getD_kind, hkind]

namespace AppliedGlobals

variable (h : AppliedGlobals m patch m')

include h

theorem globalsSize : m'.globalsSize = roomAfter m.globalsSize patch.globals.length := by
  have hroom := validatedRoom_eq h.checked.valid (Nat.le_refl _)
  exact Except.ok.inj (h.checked.valid.symm.trans hroom)

theorem newSize {i : Nat} {global : HlPatchGlobal} (hglobal : patch.globals[i]? = some global) :
    m'.globalSize global.type.toNat = hlWSize := by
  obtain ⟨hchecked, -⟩ := validatedRoom_global h.checked.valid hglobal
  have hclass := h.kinds.global h.checked.base h.checked.capacity hchecked
  exact (class_pads hclass 0).2

theorem oldSize {t : Nat} (ht : t < m.ntypes) : m'.globalSize t = m.globalSize t :=
  congrArg HlTypeKind.size (h.kinds.old t ht)

theorem newSlot {i : Nat} {global : HlPatchGlobal} (hglobal : patch.globals[i]? = some global) :
    m'.HasSlot (m.nglobals + i) global.type.toNat (padded m.globalsSize + hlWSize * i) := by
  obtain ⟨hi, -⟩ := List.getElem?_eq_some_iff.mp hglobal
  obtain ⟨htype, hindex⟩ := h.tables.staged i global hi hglobal
  have hcount := h.nglobals
  exact ⟨by omega, htype, hindex⟩

theorem newSlot_cases {g t offset : Nat} (hg : m.nglobals ≤ g) (hslot : m'.HasSlot g t offset) :
    ∃ i, i < patch.globals.length ∧ g = m.nglobals + i ∧
      offset = padded m.globalsSize + hlWSize * i ∧ m'.globalSize t = hlWSize := by
  have hlive := hslot.live
  rw [h.nglobals] at hlive
  have hi : g - m.nglobals < patch.globals.length := by omega
  have hglobal := List.getElem?_eq_getElem hi
  have hnew := h.newSlot hglobal
  rw [show m.nglobals + (g - m.nglobals) = g by omega] at hnew
  obtain rfl : _ = t := Option.some.inj (Option.some.inj (hnew.type.symm.trans hslot.type))
  have hoffset := Option.some.inj (hnew.index.symm.trans hslot.index)
  exact ⟨g - m.nglobals, hi, by omega, by omega, h.newSize hglobal⟩

theorem oldSlot_iff {g t offset : Nat} (hg : g < m.nglobals) :
    m'.HasSlot g t offset ↔ m.HasSlot g t offset := by
  obtain ⟨htype, hindex⟩ := h.tables.kept g hg
  have hcount := h.nglobals
  constructor
  · intro hslot
    exact ⟨hg, htype ▸ hslot.type, hindex ▸ hslot.index⟩
  · intro hslot
    exact ⟨by omega, htype.trans hslot.type, hindex.trans hslot.index⟩

theorem oldSlot_end (hlaid : m.LaidOut) {g t offset : Nat} (hg : g < m.nglobals)
    (hslot : m'.HasSlot g t offset) : offset + m'.globalSize t ≤ padded m.globalsSize := by
  have hold := (h.oldSlot_iff hg).mp hslot
  obtain ⟨t', offset', hslot', ht, hend⟩ := hlaid.slots g hg
  obtain rfl : t' = t := Option.some.inj (Option.some.inj (hslot'.type.symm.trans hold.type))
  have hoffset := Option.some.inj (hslot'.index.symm.trans hold.index)
  rw [h.oldSize ht]
  omega

theorem apart (hlaid : m.LaidOut) {g t offset g' t' offset' : Nat} (hg : m.nglobals ≤ g)
    (hslot : m'.HasSlot g t offset) (hslot' : m'.HasSlot g' t' offset') (hne : g ≠ g') :
    Apart offset (m'.globalSize t) offset' (m'.globalSize t') := by
  rintro b ⟨hb, hb', hc, hc'⟩
  obtain ⟨i, hi, rfl, rfl, hsize⟩ := h.newSlot_cases hg hslot
  rw [hsize] at hb'
  by_cases hg' : m.nglobals ≤ g'
  · obtain ⟨j, hj, rfl, rfl, hsize'⟩ := h.newSlot_cases hg' hslot'
    rw [hsize'] at hc'
    simp only [hlWSize] at hb hb' hc hc'
    omega
  · have hend := h.oldSlot_end hlaid (Nat.lt_of_not_le hg') hslot'
    omega

theorem fits {g t offset : Nat} (hg : m.nglobals ≤ g) (hslot : m'.HasSlot g t offset) :
    offset + m'.globalSize t ≤ m'.globalsDataCapacity := by
  obtain ⟨i, hi, rfl, rfl, hsize⟩ := h.newSlot_cases hg hslot
  obtain ⟨-, hfits⟩ := validatedRoom_global h.checked.valid (List.getElem?_eq_getElem hi)
  rw [roomAfter_succ, padded_roomAfter] at hfits
  rw [hsize, h.capacity]
  exact hfits

theorem layout (hlaid : m.LaidOut) : PatchGlobalsLayout m patch m' where
  size := h.checked.valid
  same i global hglobal := by
    obtain ⟨hi, -⟩ := List.getElem?_eq_some_iff.mp hglobal
    have hroom := validatedRoom_eq h.checked.valid (Nat.le_of_lt hi)
    have hnext := validatedRoom_eq h.checked.valid hi
    rw [roomAfter_succ, padded_roomAfter] at hnext
    refine ⟨_, _, hroom, ?_, ?_, h.newSlot hglobal⟩
    · rw [← padded_roomAfter]
      exact le_padded _
    · rw [h.newSize hglobal]
      exact hnext
  aligned g t offset hg hslot := by
    obtain ⟨i, -, -, rfl, hsize⟩ := h.newSlot_cases hg hslot
    have hmod := padded_mod m.globalsSize
    rw [hsize]
    simp only [hlWSize] at hmod ⊢
    omega
  fits g t offset hg hslot := ⟨h.fits hg hslot, h.capacity ▸ hlaid.int⟩
  apart g t offset g' t' offset' hg hslot hslot' hne := h.apart hlaid hg hslot hslot' hne
  kept g t offset hg := h.oldSlot_iff hg
  sizes t ht := h.oldSize ht

theorem laidOut (hlaid : m.LaidOut) : m'.LaidOut := by
  obtain ⟨hglobals, hindexes⟩ := h.tables.lengths
  have hcount := h.nglobals
  have hlive : m'.nglobals ≤ m'.globals.length := by
    rw [hglobals, hcount]
    by_cases hnil : patch.globals = []
    · simpa [hnil] using hlaid.count
    · exact h.checked.room hnil
  have hpadded : padded m'.globalsSize = padded m.globalsSize + hlWSize * patch.globals.length := by
    rw [h.globalsSize, padded_roomAfter]
  refine ⟨by rw [hglobals, hindexes, hlaid.lengths], hlive, ?_, fun g hg => ?_, ?_, h.capacity ▸ hlaid.int⟩
  · rw [h.ntypes, h.kinds.length]
    exact h.checked.capacity
  · rw [hpadded]
    by_cases hold : g < m.nglobals
    · obtain ⟨t, offset, hslot, ht, hend⟩ := hlaid.slots g hold
      have hbase := h.checked.base
      refine ⟨t, offset, (h.oldSlot_iff hold).mpr hslot, ?_, ?_⟩
      · rw [h.ntypes, HlPatch.totalTypes]
        omega
      · rw [h.oldSize ht]
        omega
    · have hi : g - m.nglobals < patch.globals.length := by omega
      have hglobal := List.getElem?_eq_getElem hi
      have hnew := h.newSlot hglobal
      rw [show m.nglobals + (g - m.nglobals) = g by omega] at hnew
      obtain ⟨⟨htotal, -⟩, -⟩ := validatedRoom_global h.checked.valid hglobal
      refine ⟨_, _, hnew, h.ntypes ▸ htotal, ?_⟩
      rw [h.newSize hglobal]
      simp only [hlWSize]
      omega
  · rw [hpadded, h.capacity, hglobals, hcount]
    have hroom := hlaid.room
    rw [hglobals, hcount] at hlive
    simp only [hlWSize] at hroom ⊢
    omega

end AppliedGlobals

/-- A run of patches a module takes one after the other. -/
inductive PatchRun (m : HlModule) : HlModule → Prop where
  | start : PatchRun m m
  | step {m₁ m₂ : HlModule} (env : PatchEnv) (patch : HlPatch) (run : PatchRun m m₁)
      (taken : hlModuleApplyPatch env m₁ patch = (m₂, none)) : PatchRun m m₂

theorem PatchRun.laidOut (hlaid : m.LaidOut) (hrun : PatchRun m m') : m'.LaidOut := by
  induction hrun with
  | start => exact hlaid
  | step env patch _ htaken ih => exact (appliedGlobals ih htaken).laidOut ih

end HashLink
